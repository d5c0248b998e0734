import Throbac.Tree.Basic
import Throbac.Stack.Context

/-!
# Printed trees

A tree prints as nested lists: a phrase by the name of its rule before its parts, a leaf by its text.
Without rule names a phrase prints as its chain of invoking states.
-/
namespace Throbac

namespace ParseTree

/-- A leaf as a tree shows it. A token that error recovery skipped at the end of the input shows as
such. -/
def leafText (t : Token) (isError : Bool) : Except Fault String := do
  if isError && t.isEof then return "<EOF>"
  return Text.escape (← t.textOrFault)

def enclose (head : String) (parts : List String) : String :=
  if parts.isEmpty then head else "(" ++ head ++ " " ++ " ".intercalate parts ++ ")"

mutual

/-- The tree with the names of its rules. A phrase without a rule takes the last name. -/
def display (names : Array String) : ParseTree → Except Fault String
  | leaf t e => leafText t e
  | node i cs => do
    let head ← Sequence.arrayAt names i.kind.rule
    return enclose (Text.escape head) (← displayAll names cs)

def displayAll (names : Array String) : List ParseTree → Except Fault (List String)
  | [] => .ok []
  | c :: cs => do return (← c.display names) :: (← displayAll names cs)

end

mutual

/-- The tree without names, below phrases with the given invoking states, innermost first. -/
def displayBare (above : List Int) : ParseTree → Except Fault String
  | leaf t _ => do return Text.escape (← t.textOrFault)
  | node i cs => do
    let chain := i.invoking :: above
    return enclose (Invocations.display chain) (← displayBareAll chain cs)

def displayBareAll (above : List Int) : List ParseTree → Except Fault (List String)
  | [] => .ok []
  | c :: cs => do return (← c.displayBare above) :: (← displayBareAll above cs)

end

end ParseTree

end Throbac
