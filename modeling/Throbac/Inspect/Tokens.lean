import Throbac.Inspect.Value
import Throbac.TokenEdits

/-!
# Views of lexer actions and edits
-/
namespace Throbac

def LexerAction.className (a : LexerAction) : String :=
  "Lexer" ++ (match a with
    | .channel _ => "Channel"
    | .custom .. => "Custom"
    | .mode _ => "Mode"
    | .more => "More"
    | .popMode => "PopMode"
    | .pushMode _ => "PushMode"
    | .skip => "Skip"
    | .type _ => "Type"
    | .indexed .. => "IndexedCustom") ++ "Action"

def Edit.view (number : Nat) (e : Edit) : Value :=
  let (name, last) := match e.kind with
    | .replace n => ("ReplaceOp", inspect n)
    | .after => ("InsertAfterOp", .null)
    | .before => ("InsertBeforeOp", .null)
  .list [inspect name, inspect e.index, inspect e.text, inspect number, last]

/-- The instructions of a program; those that were joined to others are gone. -/
def TokenEdits.viewProgram (t : TokenEdits) (name : String) : Value :=
  .list ((t.program name).mapIdx fun i e => inspect (e.map (Edit.view i))).toList

end Throbac
