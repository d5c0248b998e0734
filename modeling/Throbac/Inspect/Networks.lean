import Throbac.Inspect.Value

/-!
# Views of networks

An edge shows its class, target, whether it is taken without reading, its symbols, what else it
carries, and where it has one its printed form. A state shows the fields that states of its class
have.
-/
namespace Throbac

namespace Label

def className : Label → String
  | epsilon _ => "EpsilonTransition"
  | range .. => "RangeTransition"
  | call .. => "RuleTransition"
  | predicate .. => "PredicateTransition"
  | atom _ => "AtomTransition"
  | action .. => "ActionTransition"
  | set _ => "SetTransition"
  | notSet _ => "NotSetTransition"
  | wildcard => "WildcardTransition"
  | precedence _ => "PrecedencePredicateTransition"

def marks : Label → List (String × Value)
  | epsilon o => [("outermostPrecedenceReturn", inspect o)]
  | call r p f => Value.fields "ruleIndex precedence follow" [inspect r, inspect p, inspect f]
  | predicate r p c =>
    Value.fields "ruleIndex predIndex isCtxDependent" [inspect r, inspect p, inspect c]
  | action r a c =>
    Value.fields "ruleIndex actionIndex isCtxDependent" [inspect r, inspect a, inspect c]
  | precedence p => [("precedence", inspect p)]
  | _ => []

def hasDisplay : Label → Bool
  | epsilon _ | range .. | predicate .. | atom _ | wildcard => true
  | _ => false

end Label

instance : Inspect Edge := ⟨fun x =>
  .list ([inspect x.label.className, inspect x.target, inspect x.isEpsilon, inspect x.label.symbols]
    ++ x.label.marks.map (fun (k, v) => .list [inspect k, v])
    ++ if x.label.hasDisplay then [inspect x.label.display] else [])⟩

def StateKind.className : StateKind → String
  | basic => "BasicState"
  | ruleStart => "RuleStartState"
  | blockStart => "BasicBlockStartState"
  | plusBlockStart => "PlusBlockStartState"
  | starBlockStart => "StarBlockStartState"
  | tokenStart => "TokensStartState"
  | ruleStop => "RuleStopState"
  | blockEnd => "BlockEndState"
  | starLoopBack => "StarLoopbackState"
  | starLoopEntry => "StarLoopEntryState"
  | plusLoopBack => "PlusLoopbackState"
  | loopEnd => "LoopEndState"

namespace Network

def inspectState (net : Network) (n : Nat) : Value :=
  let s := net.state n
  let k := s.kind
  let all : List (Bool × String × Value) := [
    (true, "n", inspect n), (true, "type", inspect k.name), (true, "cls", inspect k.className),
    (true, "rule", inspect s.rule), (true, "eps", inspect s.epsilonOnly),
    (true, "trans", inspect s.edges), (k.isBlockStart, "endState", inspect s.endState),
    (k == .blockEnd, "startState", inspect s.startState),
    (k == .ruleStart || s.stopState.isSome, "stopState", inspect s.stopState),
    (k == .plusBlockStart || k == .starLoopEntry || k == .loopEnd, "loopBackState",
      inspect s.loopBack),
    (s.decision.isSome, "decision", inspect s.decision),
    (s.nonGreedy.isSome, "nonGreedy", inspect s.nonGreedy),
    (s.precedenceRule.isSome, "isPrecedenceRule", inspect s.precedenceRule),
    (k == .starLoopEntry, "isPrecedenceDecision",
      if s.precedenceDecision then .flag true else .null)]
  .record (all.filterMap fun (shown, field) => if shown then some field else none)

/-- The network as a whole. A rule without a stop state cannot be shown. -/
def summary (net : Network) : Except Fault Value := do
  let stops ← net.stops.toList.mapM fun
    | some n => .ok n
    | none => .error Fault.noMember
  return .record (Value.fields "type max states decisions starts stops tokenTypes modes actions" [
    .number (if net.sort = .lexer then 0 else 1), inspect net.maxSymbol, inspect net.states.size,
    inspect net.decisions, inspect net.starts, inspect stops, inspect net.tokenTypes,
    inspect net.modes, inspect (net.actions.map (·.map (·.display)))])

end Network

end Throbac
