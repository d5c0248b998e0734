import Throbac.Grammar.Networks
import Throbac.Grammar.Names
import Throbac.Lexing.Lexer
import Throbac.Text.LetterCase

/-!
# The lexers of programs and paths
-/
namespace Throbac.Grammar

/-- The lexer of programs. It has no actions of its own. -/
def lexerSpec : LexerSpec where
  network := lexerNetwork
  names := lexerSymbolicNames

def pathToken : Int := 1
def pathRule : Int := 2
def pathAnywhere : Int := 3
def pathRoot : Int := 4
def pathWildcard : Int := 5
def pathBang : Int := 6
def pathString : Int := 8

/-- A word of a path that starts with a capital names a token, any other a rule. -/
def pathAction (rule action _index : Int) (text : String) : Except Fault (Option Int) :=
  if rule ≠ 4 then .error (.noAction rule)
  else if action ≠ 0 then .ok none
  else match text.toList with
    | [] => .error .outOfRange
    | c :: _ => .ok (some (if Text.isCapital c then pathToken else pathRule))

/-- The lexer of path expressions. It does not recover from what it cannot read. -/
def pathSpec : LexerSpec where
  network := pathNetwork
  names := pathSymbolicNames
  action := pathAction
  strict := true

end Throbac.Grammar
