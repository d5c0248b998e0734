import Throbac.Tree.Basic

/-!
# Edits of a phrase

Parts can be looked up by position, added and removed. A phrase that was never given a part has no
list of parts, which a look-up by position minds and a removal does not.
-/
namespace Throbac.ParseTree

/-- The part at a signed position; none behind the last. -/
def childAt (i : Int) : ParseTree → Except Fault (Option ParseTree)
  | leaf .. => .ok none
  | node info cs =>
    if !info.listed then .error .wrongType
    else if i < cs.length then some <$> Sequence.listAt cs i
    else .ok none

def addPart (part : ParseTree) : ParseTree → ParseTree
  | leaf s e => leaf s e
  | node info cs => node { info with listed := true } (cs ++ [part])

/-- Removes the last part, which must be there if the phrase has a list of parts. -/
def removeLast : ParseTree → Except Fault ParseTree
  | leaf s e => .ok (leaf s e)
  | node info cs =>
    if info.listed ∧ cs.isEmpty then .error .outOfRange else .ok (node info cs.dropLast)

/-- A bare phrase at the same place, with the skipped tokens only. -/
def husk : ParseTree → ParseTree
  | leaf s e => leaf s e
  | node info cs =>
    node { kind := .bare, invoking := info.invoking, start := info.start, stop := info.stop
           listed := info.listed } (cs.filter fun
      | leaf _ e => e
      | node .. => false)

end Throbac.ParseTree
