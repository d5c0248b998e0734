/-!
# Actions of a lexer

What a lexer does when a rule has matched, beyond making a token. A custom action belongs to the
grammar's author and is known by its rule and number; it may look at the input, so the place where
it runs matters, and `indexed` pins it to an offset from the start of the match.
-/
namespace Throbac

inductive LexerAction
  | channel (n : Int)
  | custom (rule action : Int)
  | mode (n : Int)
  | more
  | popMode
  | pushMode (n : Int)
  | skip
  | type (n : Int)
  | indexed (offset : Int) (action : LexerAction)
  deriving DecidableEq, Repr, Inhabited

namespace LexerAction

/-- The number that stands for the action in a serialized network. -/
def code : LexerAction → Int
  | channel _ => 0
  | custom .. => 1
  | mode _ => 2
  | more => 3
  | popMode => 4
  | pushMode _ => 5
  | skip => 6
  | type _ => 7
  | indexed _ a => a.code

/-- Whether the action depends on where in the input it runs. -/
def positionDependent : LexerAction → Bool
  | custom .. | indexed .. => true
  | _ => false

def display : LexerAction → String
  | channel n => s!"channel({n})"
  | custom .. => "<LexerCustomAction>"
  | mode n => s!"mode({n})"
  | more => "more"
  | popMode => "popMode"
  | pushMode n => s!"pushMode({n})"
  | skip => "skip"
  | type n => s!"type({n})"
  | indexed .. => "<LexerIndexedCustomAction>"

end LexerAction

/-- An action as one match holds it. Custom actions are told apart by their stamp: the number of the
action in the network, or a fresh one each time an action is pinned to an offset. -/
structure PlacedAction where
  action : LexerAction
  stamp : Nat := 0
  deriving DecidableEq, Repr, Inhabited

/-- The actions of a match in the order in which they run. -/
abbrev ActionList := List PlacedAction

namespace ActionList

/-- The actions with stamps for the custom ones, counted from `first` on. -/
def ofActions (first : Nat) (as : List LexerAction) : ActionList :=
  as.zipIdx.map fun (a, i) => ⟨a, if a.positionDependent then first + i else 0⟩

/-- Whether pinning the actions would change any of them. -/
def unpinned (a : PlacedAction) : Bool :=
  match a.action with
  | .custom .. => true
  | _ => false

/-- Pins the custom actions that are not pinned yet, with stamps from `fresh` on. Gives the actions
and the next unused stamp. -/
def pin (offset : Int) (fresh : Nat) : ActionList → ActionList × Nat
  | [] => ([], fresh)
  | a :: rest =>
    if unpinned a then
      let (rest, next) := pin offset (fresh + 1) rest
      (⟨.indexed offset a.action, fresh⟩ :: rest, next)
    else
      let (rest, next) := pin offset fresh rest
      (a :: rest, next)

end ActionList

end Throbac
