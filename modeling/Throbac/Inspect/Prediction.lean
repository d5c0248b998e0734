import Throbac.Inspect.Value

/-!
# Views of prediction

Stacks, guards and what a set of configurations says about the alternatives. The operands of a guard
have no order of their own; they show in the order of their texts.
-/
namespace Throbac

namespace Value

mutual

def key : Value → String
  | null => "null"
  | flag b => toString b
  | number n => toString n
  | text s => "\"" ++ s ++ "\""
  | list xs => "[" ++ ",".intercalate (keys xs) ++ "]"
  | record _ => "\x7b\x7d"

def keys : List Value → List String
  | [] => []
  | x :: xs => x.key :: keys xs

end

end Value

namespace StackContext

mutual

def view : StackContext → Value
  | null => .null
  | empty => .text "$"
  | single p r => .record [("s", .list [p.view, .number r])]
  | array ps rs => .record [("a", .list [.list (viewAll ps), inspect rs])]

def viewAll : List StackContext → List Value
  | [] => []
  | c :: cs => c.view :: viewAll cs

end

end StackContext

namespace Guard

mutual

def view : Guard → Value
  | always => .text "none"
  | predicate r p c => .text ("\x7b" ++ s!"{r}:{p}" ++ "\x7d?" ++ if c then "!" else "")
  | precedence n => .text s!"prec {n}"
  | all gs => .list (.text "AND" :: (viewAll gs).mergeSort fun a b => decide (a.key ≤ b.key))
  | any gs => .list (.text "OR" :: (viewAll gs).mergeSort fun a b => decide (a.key ≤ b.key))

def viewAll : List Guard → List Value
  | [] => []
  | g :: gs => g.view :: viewAll gs

end

end Guard

instance : Inspect StackContext := ⟨StackContext.view⟩
instance : Inspect Guard := ⟨Guard.view⟩

/-- What the ways of ending a prediction say about a set. -/
def ConfigSet.verdicts (net : Network) (s : ConfigSet) : Value :=
  let groups := s.conflictGroups
  let viable := inspect (Conflict.singleViable groups)
  .record (Value.fields
    "sll ll anyStop allStop subsets oneAlt unique single just conflict equal" [
      inspect (Conflict.endsSll net .sll s), inspect (Conflict.endsSll net .ll s),
      inspect (s.anyAtStop net), inspect (s.allAtStop net),
      inspect (groups.mergeSort fun a b => !List.lex b a (fun x y => decide (x < y))), inspect s.hasLoneState,
      inspect (Conflict.uniqueAlt groups), viable, viable,
      inspect (Conflict.allConflict groups), inspect (Conflict.allEqual groups)])

end Throbac
