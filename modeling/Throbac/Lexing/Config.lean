import Throbac.Stack.Merge
import Throbac.Text.Escape

/-!
# Configurations of a lexer network

Where one lexical rule stands within a match: a state, the stacks of its callers, the actions met so
far and whether it went through a choice that prefers to leave. A set lists configurations in the
order of their priority, each once.
-/
namespace Throbac

structure LexConfig where
  state : Nat
  alt : Int
  context : StackContext
  actions : Option ActionList := none
  /-- Whether a choice that prefers to leave was passed. -/
  nonGreedy : Bool := false
  deriving DecidableEq, Inhabited, Repr

namespace LexConfig

def display (c : LexConfig) : String :=
  s!"({c.state},{c.alt}"
    ++ (if c.context = .null then "" else ",[" ++ c.context.display ++ "]") ++ ")"

/-- The configuration carried on to another state, which may be a choice that prefers to leave. -/
def moveTo (c : LexConfig) (net : Network) (n : Nat) : LexConfig :=
  let s := net.state n
  { c with state := n, nonGreedy := c.nonGreedy || (s.kind.isDecision && s.prefersExit) }

end LexConfig

structure LexConfigs where
  configs : Array LexConfig := #[]
  hasGuard : Bool := false
  deriving DecidableEq, Inhabited, Repr

namespace LexConfigs

def add (s : LexConfigs) (c : LexConfig) : LexConfigs :=
  if s.configs.contains c then s else { s with configs := s.configs.push c }

def display (s : LexConfigs) : String :=
  Text.bracket (s.configs.toList.map LexConfig.display)
    ++ (if s.hasGuard then ",hasSemanticContext=True" else "")

end LexConfigs

end Throbac
