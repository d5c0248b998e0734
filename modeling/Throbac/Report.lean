import Throbac.Token

/-!
# Reports

What a lexer or parser tells its listeners: syntax errors, and remarks on how a decision was
predicted.
-/
namespace Throbac

/-- The sort of recognition failure behind a syntax error. -/
inductive ErrorCause
  | unreadable
  | mismatch
  | noViable
  | failedPredicate
  | plain
  deriving DecidableEq, Repr, Inhabited

def ErrorCause.name : ErrorCause → String
  | unreadable => "LexerNoViableAltException"
  | mismatch => "InputMismatchException"
  | noViable => "NoViableAltException"
  | failedPredicate => "FailedPredicateException"
  | plain => "RecognitionException"

inductive Report
  | syntaxError (line : Option Int) (column : Int) (message : String) (token : Option Token)
      (cause : Option ErrorCause)
  /-- Several alternatives match the same input. -/
  | ambiguity (decision start stop : Int) (exact : Bool) (alts : Option (List Int))
      (configs : String)
  /-- Prediction without the callers' stack ran into a conflict. -/
  | fullContext (decision start stop : Int) (alts : Option (List Int)) (configs : String)
  | contextSensitivity (decision start stop prediction : Int) (configs : String)
  deriving Inhabited, Repr

end Throbac
