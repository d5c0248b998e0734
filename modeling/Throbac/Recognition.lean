import Throbac.Report
import Throbac.Prediction.Config

/-!
# Failed recognition

A parser that cannot go on raises a recognition error, which holds all that the report and the
recovery need to know of the moment. The callers of a rule are listed from the inside out.
-/
namespace Throbac

/-- One rule in progress: its number, negative if it has none, and the state that invoked it. -/
structure Call where
  rule : Int := -1
  invoking : Int := -1
  deriving DecidableEq, Repr, Inhabited

abbrev Callers := List Call

namespace Callers

def invocations (cs : Callers) : List Int := cs.map Call.invoking

/-- A rule by name, by its number where a name is missing. -/
def ruleName (names : Array String) (c : Call) : String :=
  if 0 ≤ c.rule then names.getD c.rule.toNat (toString c.rule) else toString c.rule

def display (names : Array String) (cs : Callers) : String :=
  "[" ++ " ".intercalate (cs.map (ruleName names)) ++ "]"

/-- The rules inside the outermost, each with a blank behind it. -/
def displayInner (names : Array String) (cs : Callers) : String :=
  "[" ++ String.join (cs.dropLast.map fun c => ruleName names c ++ " ") ++ "]"

def names (all : Array String) (cs : Callers) : Except Fault (List String) :=
  cs.mapM fun c => if c.rule < 0 then .ok "n/a" else Sequence.arrayAt all c.rule

end Callers

structure FailedPredicate where
  rule : Int
  index : Int
  predicate : Option String
  deriving DecidableEq, Repr, Inhabited

structure RecognitionError where
  cause : ErrorCause
  message : Option String := none
  offending : Option Token := none
  state : Int := -1
  callers : Callers := []
  start : Option Token := none
  /-- The configurations that the failed prediction had left. -/
  dead : Option ConfigSet := none
  predicate : Option FailedPredicate := none
  deriving Inhabited

inductive Interruption
  | fault (f : Fault)
  | recognition (e : RecognitionError)
  | cancelled (e : RecognitionError)
  deriving Inhabited

namespace Interruption

def title : Interruption → String
  | fault f => f.kind.title
  | recognition e => e.cause.name
  | cancelled _ => "ParseCancellationException"

def message : Interruption → Option String
  | fault f => f.message
  | recognition e => e.message
  | cancelled _ => none

end Interruption

end Throbac
