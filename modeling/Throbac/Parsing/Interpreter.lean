import Throbac.Parsing.Control

/-!
# Parsing by the network

A network can be followed state by state instead of by rules. The interpreter reads tokens, calls
rules, decides predicates and runs actions, and recovers from errors as a parser does. It has no way
to leave a rule: it ends with a fault where a rule ends, and where an edge reads nothing.
-/
namespace Throbac.Interpreter

open Throbac.Parser

/-- The states where a left-recursive rule decides whether to go on. -/
def recursionStates (net : Network) : List Nat :=
  (List.range net.states.size).filter fun n =>
    (net.state n).kind == .starLoopEntry && (net.state n).precedenceDecision

/-- Opens a phrase of the rule that starts at a state. -/
def enter (start : Nat) (rule invoking precedence : Int) : ParseM Unit := do
  let net := (← get).core.spec.network
  if (net.state start).precedenceRule = some true then
    enterRecursion (.numbered rule) invoking start precedence
  else enterRule (.numbered rule) invoking start

def choose (n : Nat) : ParseM Edge := do
  let s := (← get).core.spec.network.state n
  let alt ← if s.edges.size > 1 then do
      sync
      match s.decision with
      | none => throw (.fault .noMember)
      | some d =>
        let callers := (← get).callers
        onCore (Prediction.predict d (some callers) callers)
    else pure 1
  ofFault (Sequence.arrayAt s.edges (alt - 1))

/-- Takes an edge. A single token never fits the edge's own set, so it is always mended. -/
def take (n : Nat) (e : Edge) : ParseM Unit := do
  match e.label with
  | .epsilon _ => throw (.fault .wrongType)
  | .atom _ =>
    let _ ← matchWhere fun _ => false
  | .range .. | .set _ | .notSet _ =>
    let x ← symbol 1
    if !e.label.reads x Symbol.minUser Symbol.maxChar then
      let _ ← mend
    let _ ← matchAny
  | .wildcard =>
    let _ ← matchAny
  | .call _ precedence _ =>
    enter e.target ((← get).core.spec.network.state e.target).rule n precedence
  | .predicate rule index _ =>
    let p ← get
    if !(← ofFault (p.core.spec.predicate rule index true)) then
      throw (.recognition (← failedPredicate none none))
  | .action rule index _ => modify fun p => { p with performed := p.performed.push (rule, index) }
  | .precedence precedence =>
    if precedence < (← get).core.precedence then
      throw (.recognition (← failedPredicate (some s!"precpred(_ctx, {precedence})") none))
  setState e.target

/-- Handles an error at a state: the rule is given up. -/
def giveUp (n : Nat) (e : RecognitionError) : ParseM Unit := do
  let net := (← get).core.spec.network
  match ← ofFault (Sequence.arrayAt net.stops (net.state n).rule) with
  | none => throw (.fault .noMember)
  | some stop =>
    setState stop
    modifyTop fun f => { f with info := { f.info with failure := some e.cause } }
    report e
    recover e

def follow : Nat → ParseM Unit
  | 0 => throw (.fault .exhausted)
  | fuel + 1 => do
    let p ← get
    let n ← ofFault (p.core.spec.network.stateAt p.core.state)
    if (p.core.spec.network.state n).isRuleStop then throw (.fault .wrongType)
    try take n (← choose n)
    catch
      | .recognition e => giveUp n e
      | e => throw e
    follow fuel

/-- Follows the network from the start of a rule, by its number, until a fault ends it. -/
def parse (rule : Int) : ParseM Unit := do
  let p ← get
  let net := p.core.spec.network
  let start ← ofFault (Sequence.arrayAt net.starts rule)
  enter start rule (-1) 0
  follow (64 * p.core.stepBound * (net.states.size + 2))

end Throbac.Interpreter
