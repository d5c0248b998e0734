import Throbac.Stack.Context

/-!
# One symbol of lookahead

The symbols that can come next at a state of a network. Without callers the search stops at the end
of the rule and says so by the symbol `epsilon`; with callers it goes on behind the call. What is
found without callers is remembered for each state.
-/
namespace Throbac

namespace Lookahead

structure Search where
  look : SymbolSet := {}
  busy : List (Nat × StackContext) := []
  deriving Inhabited

abbrev LookM := EStateM Fault Search

def found (x : Int) : LookM Unit := modify fun s => { s with look := s.look.insertOne x }

def foundAll (x : SymbolSet) : LookM Unit := modify fun s => { s with look := s.look.union x }

/-- Collects the symbols that can come at state `n` with the given stacks. Rules that are being
called are not called again, so the stacks stay finite. -/
def explore (net : Network) (stop : Option Nat) :
    Nat → Nat → StackContext → List Int → LookM Unit
  | 0, _, _, _ => throw .exhausted
  | fuel + 1, n, ctx, called => do
    if (← get).busy.contains (n, ctx) then return
    modify fun s => { s with busy := (n, ctx) :: s.busy }
    let s := net.state n
    let atEnd := stop = some n ∨ s.isRuleStop
    if atEnd then
      if ctx = .null then
        found Symbol.epsilon
        return
      if ← MonadExcept.ofExcept ctx.isEmpty then
        found Symbol.eof
        return
    if s.isRuleStop ∧ ctx ≠ .empty then
      let called := called.filter (· ≠ s.rule)
      for (parent, ret) in ctx.frames do
        let k ← MonadExcept.ofExcept (net.stateAt ret)
        explore net stop fuel k parent called
      return
    for e in s.edges do
      match e.label with
      | .call _ _ follow =>
        let rule := (net.state e.target).rule
        if rule ∉ called then
          explore net stop fuel e.target (ctx.push follow) (rule :: called)
      | .wildcard => foundAll (.range Symbol.minUser net.maxSymbol)
      | .notSet x => foundAll (← MonadExcept.ofExcept (x.complement Symbol.minUser net.maxSymbol))
      | .atom x => foundAll (.single x)
      | .range lo hi => foundAll (.range lo hi)
      | .set x => foundAll x
      | .epsilon _ | .predicate .. | .action .. | .precedence _ =>
        explore net stop fuel e.target ctx called

/-- More than the number of places a search can visit. -/
def bound (net : Network) (callers : Nat) : Nat :=
  Nat.pow (net.states.size + 1) (net.starts.size + 2) * (callers + 2)

end Lookahead

namespace Network

/-- The symbols that can come at a state, up to a stop state if one is given. The callers are the
states that invoked the rules, innermost first. -/
def look (net : Network) (n : Nat) (stop : Option Nat) (callers : Option (List Int)) :
    Except Fault SymbolSet := do
  let ctx ← match callers with
    | none => pure StackContext.null
    | some cs => StackContext.ofInvocations net cs
  let fuel := Lookahead.bound net (callers.getD []).length
  match Lookahead.explore net stop fuel n ctx [] {} with
  | .ok _ s => .ok s.look
  | .error e _ => .error e

/-- The lookahead of the alternatives of a decision. It is kept only for a decision that has none. -/
def decisionLook (net : Network) : Option Nat → Except Fault String
  | none => .ok "None"
  | some n => if (net.edges n).isEmpty then .ok "[]" else .error .outOfRange

end Network

/-- The symbols found at states without their callers. -/
abbrev LookTable := List (Nat × SymbolSet)

namespace LookTable

/-- The symbols at a state, remembered for the next time. -/
def next (net : Network) (n : Nat) : EStateM Fault LookTable SymbolSet := do
  let table ← get
  match table.find? (·.1 == n) with
  | some e => return e.2
  | none =>
    let s ← MonadExcept.ofExcept (net.look n none none)
    set ((n, s) :: table)
    return s

def replace (table : LookTable) (n : Nat) (s : SymbolSet) : LookTable :=
  table.map fun e => if e.1 == n then (n, s) else e

/-- Adds what the callers, innermost first, allow once the rule ends. -/
def widen (net : Network) (following expected : SymbolSet) :
    List Int → EStateM Fault LookTable SymbolSet
  | [] => return finish following expected
  | c :: rest => do
    if 0 ≤ c ∧ following.contains Symbol.epsilon then
      let n ← MonadExcept.ofExcept (net.stateAt c)
      let follow ← MonadExcept.ofExcept (net.followOf n)
      let following ← next net follow
      widen net following ((expected.union following).eraseOne Symbol.epsilon) rest
    else return finish following expected
where
  finish (following expected : SymbolSet) : SymbolSet :=
    if following.contains Symbol.epsilon then expected.insertOne Symbol.eof else expected

/-- The symbols a parser expects at a state under its callers. Also says whether they are just the
ones remembered for the state. -/
def expected (net : Network) (state : Int) (callers : List Int) :
    EStateM Fault LookTable (SymbolSet × Option Nat) := do
  if state < 0 ∨ state ≥ net.states.size then throw .invalidState
  let n := state.toNat
  let following ← next net n
  if !following.contains Symbol.epsilon then return (following, some n)
  let start := (SymbolSet.empty.union following).eraseOne Symbol.epsilon
  return (← widen net following start callers, none)

end LookTable

end Throbac
