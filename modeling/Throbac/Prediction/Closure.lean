import Throbac.Recognition

/-!
# Following a parser network without reading

From a configuration every edge that reads nothing is followed at once, calls and returns included.
The configurations that wait for a symbol are collected in a set. Outside the full context a search
that leaves the rule it started in goes on behind every call of it. A configuration that was met
before is not followed again; it counts as met only as long as the set still holds it as it was.
-/
namespace Throbac

namespace Prediction

structure Surroundings where
  network : Network
  oracle : Guard.Oracle
  /-- Whether the callers' stack is followed to the bottom. -/
  full : Bool
  /-- Whether edges that read the end of the input are followed too. -/
  throughEof : Bool := false
  /-- The left-recursive rule whose continuation is predicted, if it is one. -/
  recursiveRule : Option Int := none
  ruleNames : Array String := #[]
  traced : Bool := false
  callers : Callers := []

/-- A configuration met by the search, and its place in the set if it was stored as it is. -/
structure Visit where
  config : Config
  place : Option Nat := none
  deriving Inhabited

structure Search where
  set : ConfigSet
  cache : Option MergeCache := none
  visits : Array Visit := #[]
  trace : Array String := #[]
  deriving Inhabited

abbrev SearchM := EStateM Fault Search

def tell (env : Surroundings) (line : Unit → String) : SearchM Unit := do
  if env.traced then modify fun s => { s with trace := s.trace.push (line ()) }

def onSet {α : Type} (m : ConfigM α) : SearchM α := fun s =>
  match m (s.set, s.cache) with
  | .ok x (set, cache) => .ok x { s with set, cache }
  | .error e (set, cache) => .error e { s with set, cache }

/-- Stores a configuration. Gives its place if it was new, and notes it with the visit. -/
def store (c : Config) (visit : Option Nat) : SearchM (Option Nat) := do
  let size := (← get).set.size
  let place ← onSet (ConfigSet.add c)
  if place ≠ size then return none
  match visit with
  | some v => modify fun s => { s with visits := s.visits.modify v ({ · with place := some place }) }
  | none => pure ()
  return some place

def Search.present (s : Search) (c : Config) : Option Nat → Config
  | some i => s.set.configs.getD i c
  | none => c

def Search.visited (s : Search) (c : Config) : Bool :=
  s.visits.any fun v =>
    v.config.sharesPlace c && decide (v.config.context = c.context)
      && (s.present v.config v.place).same c

def visit (c : Config) : SearchM Nat := do
  let n := (← get).visits.size
  modify fun s => { s with visits := s.visits.push { config := c } }
  return n

def ruleName (env : Surroundings) (rule : Int) : Except Fault String :=
  if rule ≥ 0 then Sequence.arrayAt env.ruleNames rule else .ok s!"<rule {rule}>"

/-- Whether a state the context returns to leads straight back to the loop entry. -/
def returnsToLoop (net : Network) (entry blockEnd n : Nat) : Bool :=
  let s := net.state n
  match s.edges.toList with
  | [e] =>
    if !e.isEpsilon then false
    else
      let t := net.state e.target
      (s.kind = .blockEnd && e.target = entry) || n = blockEnd || e.target = blockEnd
        || (t.kind = .blockEnd && (match t.edges.toList with
          | [f] => f.isEpsilon && f.target == entry
          | _ => false))
  | _ => false

/-- Whether the first edge of a loop entry of a left-recursive rule can be left out, because every
stack returns into the same loop. -/
def canSkipEntry (net : Network) (c : Config) : Except Fault Bool := do
  let s := net.state c.state
  if s.kind ≠ .starLoopEntry ∨ !s.precedenceDecision then return false
  if ← c.context.isEmpty then return false
  if ← c.context.hasEmptyPath then return false
  let rets ← c.context.frames.mapM fun f => net.stateAt f.2
  if rets.any fun n => (net.state n).rule ≠ s.rule then return false
  match s.edges[0]?.map fun e => (net.state e.target).endState with
  | some (some blockEnd) => return rets.all (returnsToLoop net c.state blockEnd)
  | _ => throw .noMember

/-- Follows an edge guarded by a predicate. In the full context the predicate is decided at once,
otherwise it joins the guard. -/
def followGuard (env : Surroundings) (c next : Config) (guard : Guard) (asked : Bool) :
    SearchM (Option Config) := do
  if !asked then return some next
  if env.full then
    let holds ← MonadExcept.ofExcept (guard.eval env.oracle)
    return if holds.getD false then some next else none
  return some { next with guard := (Guard.conj (some c.guard) (some guard)).getD .always }

/-- The words of the trace for a predicate and what becomes of the configuration. -/
def traceGuard (env : Surroundings) (collecting : Bool) (shown : String)
    (m : SearchM (Option Config)) : SearchM (Option Config) := do
  if env.traced then
    let yes := if collecting then "True" else "False"
    tell env fun _ => "PRED (collectPredicates=" ++ yes ++ ") " ++ shown
    let names ← MonadExcept.ofExcept (env.callers.names env.ruleNames)
    tell env fun _ =>
      "context surrounding pred is " ++ Text.bracket (names.map fun n => "'" ++ n ++ "'")
  let r ← m
  tell env fun _ => "config from pred transition=" ++ (match r with
    | some c => c.display
    | none => "None")
  return r

/-- Where an edge leads without reading a symbol. -/
def follow (env : Surroundings) (c : Config) (e : Edge) (collecting inRule : Bool) :
    SearchM (Option Config) := do
  let next := { c with state := e.target }
  match e.label with
  | .call _ _ ret =>
    if env.traced then
      let name ← MonadExcept.ofExcept (ruleName env (env.network.state e.target).rule)
      tell env fun _ => "CALL rule " ++ name ++ ", ctx=" ++ c.context.display
    return some { next with context := c.context.push ret }
  | .precedence p =>
    traceGuard env collecting s!"{p}>=_p, ctx dependent=true"
      (followGuard env c next (.precedence p) (collecting && inRule))
  | .predicate r p needsContext =>
    traceGuard env collecting
      (s!"{r}:{p}, ctx dependent=" ++ (if needsContext then "True" else "False"))
      (followGuard env c next (.predicate r p needsContext)
        (collecting && (!needsContext || inRule)))
  | .action r a _ =>
    tell env fun _ => s!"ACTION edge {r}:{a}"
    return some next
  | .epsilon _ => return some next
  | .atom _ | .range .. | .set _ =>
    return if env.throughEof ∧ e.label.reads Symbol.eof 0 1 then some next else none
  | .notSet _ | .wildcard => return none

/-- Marks a configuration that left a rule: one level further out, and spared by the precedence
filter if it returns to the outermost invocation of the predicted rule. -/
def leaveRule (env : Surroundings) (c : Config) (e : Edge) : Except Fault Config :=
  match env.recursiveRule, e.label with
  | none, _ => .ok { c with outer := c.outer + 1 }
  | some r, .epsilon outermost =>
    .ok { c with outer := c.outer + 1, spared := c.spared || decide (outermost = r) }
  | some _, _ => .error .noMember

/-- Notes in the trace that the search leaves the rule it started in. -/
def noteFall (env : Surroundings) (c : Config) : SearchM Unit := do
  if env.traced then
    let name ← MonadExcept.ofExcept (ruleName env (env.network.state c.state).rule)
    tell env fun _ => "FALLING off rule " ++ name

def isAction : Label → Bool
  | .action .. => true
  | _ => false

def isCall : Label → Bool
  | .call .. => true
  | _ => false

mutual

/-- Takes a configuration up: at the end of a rule it returns to the callers on its stacks, and
otherwise its edges are followed. -/
def settle (env : Surroundings) : Nat → Config → Option Nat → Bool → Int → SearchM Unit
  | 0, _, _, _, _ => throw .exhausted
  | fuel + 1, c, met, collecting, depth => do
    tell env fun _ => "closure(" ++ c.display ++ ")"
    let s := env.network.state c.state
    if !s.isRuleStop then expand env fuel c met collecting depth
    else if ← MonadExcept.ofExcept c.context.isEmpty then
      if env.full then
        let _ ← store c met
      else
        noteFall env c
        expand env fuel c met collecting depth
    else
      for (parent, ret) in c.context.frames do
        if ret = StackContext.bottom then
          if env.full then
            let _ ← store { c with context := .empty } none
          else
            noteFall env c
            expand env fuel c met collecting depth
        else
          let n ← MonadExcept.ofExcept (env.network.stateAt ret)
          settle env fuel { c with state := n, context := parent, spared := false } none collecting
            (depth - 1)

/-- Stores a configuration that waits for a symbol and follows the edges that read nothing. -/
def expand (env : Surroundings) : Nat → Config → Option Nat → Bool → Int → SearchM Unit
  | 0, _, _, _, _ => throw .exhausted
  | fuel + 1, c, met, collecting, depth => do
    let s := env.network.state c.state
    let place ← if s.epsilonOnly then pure none else store c met
    for (e, i) in s.edges.toList.zipIdx do
      let c := (← get).present c place
      if i = 0 then
        if ← MonadExcept.ofExcept (canSkipEntry env.network c) then continue
      let collecting := collecting && !isAction e.label
      match ← follow env c e collecting (depth = 0) with
      | none => continue
      | some next =>
        if s.isRuleStop then
          let next ← MonadExcept.ofExcept (leaveRule env next e)
          if (← get).visited next then continue
          let v ← visit next
          modify fun s => { s with set := { s.set with dipsOutside := true } }
          tell env fun _ => "dips into outer ctx: " ++ next.display
          settle env fuel next (some v) collecting (depth - 1)
        else
          let depth := if isCall e.label ∧ depth ≥ 0 then depth + 1 else depth
          if e.isEpsilon then settle env fuel next none collecting depth
          else if (← get).visited next then continue
          else
            let v ← visit next
            settle env fuel next (some v) collecting depth

end

/-- More than the number of steps a search without a loop can take. -/
def bound (net : Network) (c : Config) : Nat :=
  2 * Nat.pow (net.states.size + 1) (net.starts.size + 1) * (c.context.height + 2)

/-- Collects what can be reached from a configuration without reading. -/
def closure (env : Surroundings) (c : Config) (collecting : Bool) : SearchM Unit :=
  settle env (bound env.network c) c none collecting 0

def start (env : Surroundings) (n : Nat) (context : StackContext) : SearchM Unit := do
  for (e, i) in (env.network.edges n).toList.zipIdx do
    modify ({ · with visits := #[] })
    closure env { state := e.target, alt := i + 1, context } true

end Prediction

end Throbac
