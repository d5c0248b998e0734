import Throbac.Lexing.Config

/-!
# Following a lexer network without reading

From a configuration every edge that reads nothing is followed at once. The configurations that wait
for a character, or stand at the end of a rule, are collected in the order of the alternatives. Once
an alternative has reached its end, configurations of it that passed a choice which prefers to leave
are dropped.
-/
namespace Throbac

namespace Lexing

structure Surroundings where
  network : Network
  predicate : Int → Int → Except Fault Bool
  /-- Whether edges that read the end of the input are followed too. -/
  throughEof : Bool := false
  names : Array String := #[]
  traced : Bool := false
  offset : Int := 0

structure Collected where
  configs : LexConfigs := {}
  trace : Array String := #[]
  /-- The next unused stamp for a pinned action. -/
  fresh : Nat := 0
  deriving Inhabited

abbrev CollectM := EStateM Fault Collected

def collect (c : LexConfig) : CollectM Unit :=
  modify fun s => { s with configs := s.configs.add c }

def note (env : Surroundings) (line : Unit → String) : CollectM Unit := do
  if env.traced then modify fun s => { s with trace := s.trace.push (line ()) }

/-- The actions with the network's action at the given position behind them. -/
def appendAction (net : Network) (actions : Option ActionList) (index : Int) :
    Except Fault (Option ActionList) :=
  match net.actions with
  | none => .error .wrongType
  | some as =>
    match Sequence.resolve? as.size index with
    | none => .error .outOfRange
    | some k => .ok (some (actions.getD [] ++ [⟨as.getD k .skip, k⟩]))

/-- Where an edge leads without reading a character. -/
def follow (env : Surroundings) (c : LexConfig) (e : Edge) : CollectM (Option LexConfig) := do
  let next := c.moveTo env.network e.target
  match e.label with
  | .call _ _ ret => return some { next with context := c.context.push ret }
  | .precedence _ => throw .lexerPrecedence
  | .predicate r p _ =>
    note env fun _ => s!"EVAL rule {r}:{p}"
    modify fun s => { s with configs := { s.configs with hasGuard := true } }
    return if ← MonadExcept.ofExcept (env.predicate r p) then some next else none
  | .action _ index _ =>
    if c.context = .null then
      return some { next with
        actions := ← MonadExcept.ofExcept (appendAction env.network c.actions index) }
    if ← MonadExcept.ofExcept c.context.hasEmptyPath then
      return some { next with
        actions := ← MonadExcept.ofExcept (appendAction env.network c.actions index) }
    return some next
  | .epsilon _ => return some next
  | .atom _ | .range .. | .set _ =>
    return if env.throughEof ∧ e.label.reads Symbol.eof 0 Symbol.maxChar then some next else none
  | .notSet _ | .wildcard => return none

/-- Leaves the rule whose end was reached. Gives the frames to go on with, and whether the stack may
be empty as well. -/
def leave (net : Network) (c : LexConfig) : Except Fault (List LexConfig) :=
  (c.context.frames.filter (·.2 ≠ StackContext.bottom)).mapM fun (parent, ret) => do
    let n ← net.stateAt ret
    return { c.moveTo net n with context := if parent = .null then c.context else parent }

/-- Collects what can be reached from a configuration without reading. Gives whether the end of its
rule was among it. -/
def closure (env : Surroundings) : Nat → LexConfig → Bool → CollectM Bool
  | 0, _, _ => throw .exhausted
  | fuel + 1, c, ended => do
    note env fun _ => "closure(" ++ c.display ++ ")"
    let s := env.network.state c.state
    if s.isRuleStop then
      if env.traced then
        let name ← MonadExcept.ofExcept (Sequence.arrayAt env.names s.rule)
        note env fun _ => "closure at " ++ name ++ " rule stop " ++ c.display
      if c.context = .null then
        collect c
        return true
      let empty ← MonadExcept.ofExcept c.context.isEmpty
      if ← MonadExcept.ofExcept c.context.hasEmptyPath then
        if empty then
          collect c
          return true
        collect { c.moveTo env.network c.state with context := .empty }
        let left ← MonadExcept.ofExcept (leave env.network c)
        left.foldlM (fun ended c => closure env fuel c ended) true
      else if empty then return ended
      else
        let left ← MonadExcept.ofExcept (leave env.network c)
        left.foldlM (fun ended c => closure env fuel c ended) ended
    else
      if !s.epsilonOnly && (!ended || !c.nonGreedy) then collect c
      let mut ended := ended
      for e in s.edges do
        match ← follow env c e with
        | some next => ended ← closure env fuel next ended
        | none => pure ()
      return ended

/-- More than the number of steps a search without a loop can take. -/
def bound (net : Network) (c : LexConfig) : Nat :=
  Nat.pow (net.states.size + 1) (net.starts.size + 1) * (c.context.height + 2)

/-- The character of a symbol, as a trace shows it. -/
def showSymbol (t : Int) : Except Fault String :=
  if t = Symbol.eof then .ok "EOF" else do return "'" ++ (← Label.charOf t) ++ "'"

def start (env : Surroundings) (n : Nat) : CollectM Unit := do
  for (e, i) in (env.network.edges n).toList.zipIdx do
    let c : LexConfig := { state := e.target, alt := i + 1, context := .empty }
    let _ ← closure env (bound env.network c) c false

/-- Pins the actions of a configuration to the present offset. -/
def pinActions (env : Surroundings) (actions : Option ActionList) : CollectM (Option ActionList) := do
  match actions with
  | none => return none
  | some as =>
    let s ← get
    let (as, fresh) := ActionList.pin env.offset s.fresh as
    set { s with fresh }
    return some as

/-- The configurations reached by reading a symbol. -/
def advance (env : Surroundings) (from_ : LexConfigs) (t : Int) : CollectM Unit := do
  let mut skipAlt : Int := 0
  for c in from_.configs do
    let ended := c.alt == skipAlt
    if ended && c.nonGreedy then continue
    if env.traced then
      let name ← MonadExcept.ofExcept (showSymbol t)
      note env fun _ => "testing " ++ name ++ " at " ++ c.display
    for e in env.network.edges c.state do
      if e.label.reads t 0 Symbol.maxChar then
        let actions ← pinActions env c.actions
        let next := { c.moveTo env.network e.target with actions }
        if ← closure env (bound env.network next) next ended then skipAlt := c.alt

end Lexing

end Throbac
