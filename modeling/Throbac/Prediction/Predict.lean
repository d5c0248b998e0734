import Throbac.Recognizer
import Throbac.Prediction.Closure

/-!
# Predicting an alternative

At a choice the parser looks ahead until one alternative is left. It first works without the stack
of callers; these steps are cached in an automaton for the choice. If the alternatives conflict then,
it starts again with the full stack. A conflict that stays is an ambiguity, which the least
alternative wins.
-/
namespace Throbac

namespace Prediction

structure Question where
  /-- The number of the choice among the decisions. -/
  decision : Nat
  start : Int
  asked : Option Callers
  around : Callers
  deriving Inhabited

open Recognizer

def automaton (q : Question) : RecM (Automaton ConfigSet) := do
  return (← get).automata.getD q.decision {}

def modifyAutomaton (q : Question) (f : Automaton ConfigSet → Automaton ConfigSet) : RecM Unit :=
  modify fun r => { r with automata := r.automata.modify q.decision f }

def stateAt (q : Question) (n : Nat) : RecM (AutoState ConfigSet) := do
  return (← automaton q).states.getD n default

def surroundings (q : Question) (r : Recognizer) (full throughEof : Bool) : Surroundings where
  network := r.spec.network
  oracle := r.oracle q.asked.isSome
  full
  throughEof
  recursiveRule :=
    if (r.automata.getD q.decision {}).byPrecedence then
      some (r.spec.network.state (r.automata.getD q.decision {}).origin).rule
    else none
  ruleNames := r.spec.ruleNames
  traced := r.watch.all
  callers := q.around

/-- Runs a search and gives the set it collects. -/
def search (q : Question) (full throughEof : Bool) (m : Surroundings → SearchM Unit) :
    RecM ConfigSet := fun r =>
  match m (surroundings q r full throughEof) { set := { fullContext := full }, cache := r.merges } with
  | .ok _ s => .ok s.set { r with merges := s.cache, trace := r.trace ++ s.trace }
  | .error e s => .error (.fault e) { r with merges := s.cache, trace := r.trace ++ s.trace }

def gather (full : Bool) (cs : List Config) : RecM ConfigSet := fun r =>
  match (cs.forM fun c => do let _ ← ConfigSet.add c) (({ fullContext := full } : ConfigSet), r.merges) with
  | .ok _ (set, merges) => .ok set { r with merges }
  | .error e (_, merges) => .error (.fault e) { r with merges }

def extend (set : ConfigSet) (cs : List Config) : RecM ConfigSet := fun r =>
  match (cs.forM fun c => do let _ ← ConfigSet.add c) (set, r.merges) with
  | .ok _ (set, merges) => .ok set { r with merges }
  | .error e (_, merges) => .error (.fault e) { r with merges }

/-- The configurations a choice starts with under the given callers. -/
def startSet (q : Question) (callers : Callers) (full : Bool) : RecM ConfigSet := do
  let net := (← get).spec.network
  let context ← ofFault (StackContext.ofInvocations net callers.invocations)
  let origin := (← automaton q).origin
  search q full false fun env => start env origin context

/-- Whether the configurations reach a state with the same stacks as the given one. -/
def isReached (first : List Config) (c : Config) : Bool :=
  match first.reverse.find? (·.state = c.state) with
  | some d => decide (d.context = c.context)
  | none => false

/-- Decides the precedences in a start set. A configuration of another alternative falls away if
the first alternative reaches its state with the same stacks. -/
def filterPrecedence (q : Question) (set : ConfigSet) : RecM ConfigSet := do
  let o := (← get).oracle q.asked.isSome
  let first ← ofFault ((set.configs.toList.filter (·.alt = 1)).filterMapM fun c => do
    return (← c.guard.reduce o).map fun guard => { c with guard })
  let others := set.configs.toList.filter fun c => c.alt ≠ 1 ∧ (c.spared ∨ !isReached first c)
  gather set.fullContext (first ++ others)

/-- The only alternative of a set, 0 if there are several or none. -/
def uniqueAlt (set : ConfigSet) : Int :=
  match set.configs.toList with
  | [] => 0
  | c :: rest => if rest.all (·.alt = c.alt) then c.alt else 0

def showSymbol (t : Int) : RecM String := do
  let names := (← get).spec.vocabulary.literal
  if t = Symbol.eof then return "EOF"
  if t < names.size then return (← ofFault (Sequence.arrayAt names t)) ++ s!"<{t}>"
  return toString t

def showNext : RecM String := do showSymbol (← onStream (TokenStream.symbol 1))

/-- The place of the next token as the trace shows it. -/
def showPlace : RecM String := do
  let t ← onStream TokenStream.current
  return " line " ++ t.showLine ++ s!":{t.column}"

/-- The configurations behind the edges that read the symbol. -/
def movesOf (net : Network) (set : ConfigSet) (t : Int) : List Config :=
  (set.configs.toList.filter fun c => !(net.state c.state).isRuleStop).flatMap fun c =>
    ((net.edges c.state).toList.filter fun e => e.label.reads t 0 net.maxSymbol).map
      fun e => { c with state := e.target }

/-- The configurations at the end of a rule that stay where they are. -/
def skippedOf (net : Network) (set : ConfigSet) (t : Int) (full : Bool) : List Config :=
  if full ∨ t = Symbol.eof then set.configs.toList.filter fun c => (net.state c.state).isRuleStop
  else []

/-- Explores from configurations unless only one alternative is left. -/
def exploreOn (q : Question) (between : ConfigSet) (skipped : List Config) (t : Int) (full : Bool) :
    RecM ConfigSet :=
  if skipped.isEmpty ∧ t ≠ Symbol.eof ∧ (between.size = 1 ∨ uniqueAlt between ≠ 0) then pure between
  else search q full (t = Symbol.eof) fun env => between.configs.toList.forM fun c => closure env c false

/-- At the end of the input only the configurations at the end of a rule are left. -/
def keepEnded (net : Network) (reach : ConfigSet) (t : Int) (full : Bool) : RecM ConfigSet :=
  if t = Symbol.eof ∧ !reach.allAtStop net then
    gather full (reach.configs.toList.filter fun c => (net.state c.state).isRuleStop)
  else pure reach

/-- Puts back the configurations that stayed, with the full context only if no other has ended. -/
def joinSkipped (net : Network) (reach : ConfigSet) (skipped : List Config) (full : Bool) : RecM ConfigSet :=
  if !full ∨ !reach.anyAtStop net then extend reach skipped else pure reach

/-- Traces the configurations a symbol is tested at. -/
def noteTests (set : ConfigSet) (t : Int) : RecM Unit := do
  if (← get).watch.all then
    for c in set.configs do
      note (·.all) do return "testing " ++ (← showSymbol t) ++ " at " ++ c.display

/-- The configurations reached by reading a symbol; none if there are none. -/
def advance (q : Question) (set : ConfigSet) (t : Int) (full : Bool) :
    RecM (Option ConfigSet) := do
  note (·.all) do return "in computeReachSet, starting closure: " ++ set.display
  modify fun r => { r with merges := some (r.merges.getD []) }
  noteTests set t
  let net := (← get).spec.network
  let skipped := skippedOf net set t full
  let between ← gather full (movesOf net set t)
  let reach ← exploreOn q between skipped t full
  let reach ← keepEnded net reach t full
  let reach ← joinSkipped net reach skipped full
  return if reach.isEmpty then none else some reach

/-- The guards of an alternative, joined; no guard if the alternative is not among those in
question. -/
def joinedGuard (alts : List Int) (set : ConfigSet) (i : Int) : Guard :=
  ((set.configs.toList.filter fun c => c.alt = i ∧ i ∈ alts).foldl
    (fun acc c => Guard.disj acc (some c.guard)) none).getD .always

/-- The guards of the alternatives in conflict, joined per alternative; none if none of them has
one. -/
def guardsOf (alts : List Int) (set : ConfigSet) (count : Nat) :
    RecM (Option (List (Option Guard × Int))) := do
  let all := (List.range count).map fun (i : Nat) => ((i : Int) + 1, joinedGuard alts set (i + 1))
  let any := all.any fun (_, g) => g ≠ .always
  note (·.all) do
    if !any then throw (.fault .wrongType)
    return "getPredsForAmbigAlts result "
      ++ Text.bracket ("None" :: all.map fun (_, g) => Guard.show? (some g))
  if !any then return none
  return some ((all.filter fun (i, _) => i ∈ alts).map fun (i, g) => (some g, i))

def askGuard (o : Guard.Oracle) (g : Option Guard) (alt : Int) : RecM (Option Int) := do
  match g with
  | none | some .always => return some alt
  | some g =>
    let holds ← ofFault (g.eval o)
    let watched (w : Watch) : Bool := w.all || w.automata
    note watched do
      return "eval pred (" ++ Guard.show? (some g) ++ s!", {alt})=" ++ (match holds with
        | some true => "True"
        | some false => "False"
        | none => "None")
    if holds.getD false then
      note watched do return s!"PREDICT {alt}"
      return some alt
    return none

def evalGuards (gs : List (Option Guard × Int)) (hasContext : Bool) : RecM (List Int) := do
  let o := (← get).oracle hasContext
  let alts ← gs.filterMapM fun (g, alt) => askGuard o g alt
  return ConfigSet.sorted alts

/-- A state as the trace shows it; one that is not numbered yet counts as `-1`. -/
def showState (s : AutoState ConfigSet) (n : Int) : String :=
  s!"{n}:" ++ s.configs.display
    ++ (if s.accepting then "=>" ++ (match s.guards with
      | some gs => Text.bracket (gs.map fun _ => "<PredPrediction>")
      | none => toString s.prediction) else "")

def showAutomaton (q : Question) : RecM String := do
  let v : Vocabulary := ⟨(← get).spec.vocabulary.literal, #[]⟩
  ofFault ((← automaton q).display (Automaton.symbolLabel v))

def shareSet (set : ConfigSet) : RecM ConfigSet := fun r =>
  match ConfigSet.share (set, r.contexts) with
  | .ok _ (set, contexts) => .ok set { r with contexts }
  | .error e (_, contexts) => .error (.fault e) { r with contexts }

/-- The number of a state, which is added unless it is known. -/
def addState (q : Question) (s : AutoState ConfigSet) : RecM Nat := do
  let states := (← automaton q).states
  match states.findIdx? (fun t => t.configs.same s.configs) with
  | some n => return n
  | none =>
    let set ← shareSet s.configs
    let s := { s with configs := set.setReadonly true }
    modifyAutomaton q fun a => { a with states := a.states.push s }
    note (·.all) do return "adding new DFA state: " ++ showState s states.size
    return states.size

def setEdge (q : Question) (n : Nat) (t : Int) (target : Target) : RecM Unit := do
  let top := (← get).spec.network.maxSymbol
  if t < -1 ∨ t > top then return
  modifyAutomaton q (·.modify n fun s => s.setEdge (top + 2).toNat (t + 1).toNat target)
  note (·.all) do return "DFA=\n" ++ (← showAutomaton q)

/-- Adds an edge to a state, or to failure if none is given. -/
def addEdge (q : Question) (n : Nat) (t : Int) (goal : Option (AutoState ConfigSet)) :
    RecM Target := do
  note (·.all) do
    return "EDGE " ++ showState (← stateAt q n) n ++ " -> " ++ (match goal with
      | some s => showState s (-1)
      | none => "2147483647:[]") ++ " upon " ++ (← showSymbol t)
  let target ← match goal with
    | some s => Target.state <$> addState q s
    | none => pure .failure
  setEdge q n t target
  return target

/-- A state that asks guards where there are any, and else predicts the first alternative. -/
def guardedBy (s : AutoState ConfigSet) (alts : List Int) :
    Option (List (Option Guard × Int)) → AutoState ConfigSet
  | some gs => { s with guards := some gs, prediction := 0 }
  | none => { s with prediction := alts.headD 0 }

/-- Adds the guards of the alternatives in question to an accepting state. -/
def guardState (q : Question) (s : AutoState ConfigSet) : RecM (AutoState ConfigSet) := do
  let r ← get
  let origin ← ofFault (r.spec.network.decisionState (← automaton q).decision)
  let count := ((origin.map r.spec.network.edges).getD #[]).size
  let alts := if s.configs.uniqueAlt ≠ 0 then [s.configs.uniqueAlt]
    else s.configs.conflicting.getD []
  return guardedBy s alts (← guardsOf alts s.configs count)

/-- Traces how the alternatives of a set conflict. -/
def noteConflicts (reach : ConfigSet) : RecM Unit :=
  note (·.all) do
    let groups := reach.conflictGroups
    return "SLL altSubSets=dict_values(" ++ Text.bracket (groups.map Text.brace) ++ "), configs="
      ++ reach.display ++ s!", predict={uniqueAlt reach}, allSubsetsConflict="
      ++ (if Conflict.allConflict groups then "True" else "False") ++ ", conflictingAlts="
      ++ Text.brace (ConfigSet.sorted groups.flatten)

/-- The state for a set: it accepts if one alternative is left or a conflict is sure. -/
def stateFor (net : Network) (mode : PredictionMode) (reach : ConfigSet) : Except Fault (AutoState ConfigSet) := do
  let alt := uniqueAlt reach
  if alt ≠ 0 then
    return { configs := { reach with uniqueAlt := alt }, accepting := true, prediction := alt }
  if ← Conflict.endsSll net mode reach then
    let alts := ConfigSet.sorted reach.conflictGroups.flatten
    return { configs := { reach with conflicting := some alts }, accepting := true
             needsStack := true, prediction := alts.headD 0 }
  return { configs := reach }

/-- Leads an edge to the state of a set, or nowhere. -/
def leadTo (q : Question) (n : Nat) (t : Int) : Option ConfigSet → RecM Target
  | none => addEdge q n t none
  | some reach => do
    noteConflicts reach
    let r ← get
    let s ← ofFault (stateFor r.spec.network r.mode reach)
    let s ← if s.accepting ∧ s.configs.hasGuard then guardState q s else pure s
    addEdge q n t (some s)

def computeTarget (q : Question) (n : Nat) (t : Int) : RecM Target := do
  leadTo q n t (← advance q (← stateAt q n).configs t false)

def noViable (q : Question) (outer : Option Callers) (dead : ConfigSet) : RecM RecognitionError := do
  let start ← onStream (TokenStream.tokenAt q.start)
  let offending ← onStream TokenStream.current
  return { cause := .noViable, start := some start, offending := some offending
           state := (← get).state, callers := outer.getD q.around, dead := some dead }

/-- The least alternative that has reached the end of the rule or left it. -/
def finishedAlt (net : Network) (cs : List Config) : Except Fault Int := do
  let done ← cs.filterM fun c => do
    if c.outer > 0 then return true
    if (net.state c.state).isRuleStop then c.context.hasEmptyPath else return false
  return (ConfigSet.sorted (done.map Config.alt)).headD 0

/-- The alternative to take when the input allows none: one that has finished the rule, best with
its guard fulfilled. -/
def fallback (set : ConfigSet) (hasContext : Bool) : RecM Int := do
  let r ← get
  let o := r.oracle hasContext
  let valid ← ofFault (set.configs.toList.mapM fun c => do
    if c.guard = .always then return true
    return (← c.guard.eval o).getD false)
  let marked := set.configs.toList.zip valid
  let alt ← ofFault (finishedAlt r.spec.network ((marked.filter (·.2)).map Prod.fst))
  if alt ≠ 0 then return alt
  ofFault (finishedAlt r.spec.network ((marked.filter (!·.2)).map Prod.fst))

/-- Ends a prediction without a viable alternative. -/
def giveUp (q : Question) (outer : Option Callers) (dead : ConfigSet) : RecM Int := do
  let e ← noViable q outer dead
  onStream (TokenStream.seek q.start)
  let alt ← fallback dead outer.isSome
  if alt ≠ 0 then return alt
  throw (.recognition e)

/-- Moves on by one token unless the input is at its end. Gives the next symbol. -/
def step (t : Int) : RecM Int := do
  if t = Symbol.eof then return t
  onStream TokenStream.consume
  onStream (TokenStream.symbol 1)

def describe (q : Question) : RecM String := do
  let r ← get
  let a ← automaton q
  let rule := (r.spec.network.state a.origin).rule
  let name := if rule < 0 then "" else r.spec.ruleNames.getD rule.toNat ""
  return toString a.decision ++ (if name = "" then "" else " (" ++ name ++ ")")

def quoteInput (q : Question) (stop : Int) : RecM String := do
  return ", input='" ++ (← onStream (TokenStream.text (some q.start) (some stop))) ++ "'"

def noteRemark (q : Question) (what : String) (set : ConfigSet) (stop : Int) : RecM Unit :=
  note (fun w => w.all || w.retries) do
    return what ++ ":" ++ set.display ++ ", input="
      ++ (← onStream (TokenStream.text (some q.start) (some stop)))

def remarkFullContext (q : Question) (alts : Option (List Int)) (set : ConfigSet) (stop : Int) :
    RecM Unit := do
  let d := (← automaton q).decision
  noteRemark q s!"reportAttemptingFullContext decision={d}" set stop
  remark (fun _ => .fullContext d q.start stop alts set.display) true do
    return "reportAttemptingFullContext d=" ++ (← describe q) ++ (← quoteInput q stop)

def remarkContextSensitivity (q : Question) (alt : Int) (set : ConfigSet) (stop : Int) :
    RecM Unit := do
  let d := (← automaton q).decision
  noteRemark q s!"reportContextSensitivity decision={d}" set stop
  remark (fun _ => .contextSensitivity d q.start stop alt set.display) true do
    return "reportContextSensitivity d=" ++ (← describe q) ++ (← quoteInput q stop)

def remarkAmbiguity (q : Question) (exact : Bool) (alts : Option (List Int)) (set : ConfigSet)
    (stop : Int) : RecM Unit := do
  let d := (← automaton q).decision
  let shown := match alts with
    | some as => Text.brace as
    | none => "None"
  noteRemark q ("reportAmbiguity " ++ shown) set stop
  remark (fun _ => .ambiguity d q.start stop exact alts set.display) exact do
    return "reportAmbiguity d=" ++ (← describe q) ++ ": ambigAlts="
      ++ Text.brace (alts.getD set.alts) ++ (← quoteInput q stop)

/-- Follows the input with the full stack until one alternative is left or an ambiguity is sure.
Gives the last set, the alternative and whether an exact ambiguity was found. -/
def runFull (q : Question) (outer : Option Callers) :
    Nat → ConfigSet → Int → RecM (Except Int (ConfigSet × Int × Bool))
  | 0, _, _ => throw (.fault .exhausted)
  | fuel + 1, set, t => do
    match ← advance q set t true with
    | none => .error <$> giveUp q outer set
    | some reach =>
      let groups := reach.conflictGroups
      note (·.all) do
        return "LL altSubSets=dict_values(" ++ Text.bracket (groups.map Text.brace) ++ "), predict="
          ++ toString (← ofFault (Conflict.uniqueAlt groups)) ++ ", resolvesToJustOneViableAlt="
          ++ toString (← ofFault (Conflict.singleViable groups))
      let alt := uniqueAlt reach
      let reach := { reach with uniqueAlt := alt }
      if alt ≠ 0 then return .ok (reach, alt, false)
      if (← get).mode ≠ .exhaustive then
        let alt ← ofFault (Conflict.singleViable groups)
        if alt ≠ 0 then return .ok (reach, alt, false)
      else if Conflict.allConflict groups ∧ Conflict.allEqual groups then
        return .ok (reach, ← ofFault (Conflict.singleViable groups), true)
      runFull q outer fuel reach (← step t)

def predictFull (q : Question) (outer : Option Callers) (set : ConfigSet) : RecM Int := do
  note (fun w => w.all || w.decisions) do return "execATNWithFullContext " ++ set.display
  onStream (TokenStream.seek q.start)
  let t ← onStream (TokenStream.symbol 1)
  match ← runFull q outer (← get).stepBound set t with
  | .error alt => return alt
  | .ok (reach, alt, exact) =>
    let stop := (← get).stream.index
    if reach.uniqueAlt ≠ 0 then remarkContextSensitivity q alt reach stop
    else remarkAmbiguity q exact none reach stop
    return alt

/-- Decides the guards of a state that needs the full stack. Gives the alternative if one is left,
and otherwise those that are. -/
def settleConflict (q : Question) (outer : Option Callers) (s : AutoState ConfigSet) :
    RecM (Except Int (Option (List Int))) := do
  match s.guards with
  | none => return .ok s.configs.conflicting
  | some gs =>
    note (·.all) do return "DFA state has preds in DFA sim LL failover"
    let here := (← get).stream.index
    if here ≠ q.start then onStream (TokenStream.seek q.start)
    match ← evalGuards gs outer.isSome with
    | [alt] =>
      note (·.all) do return "Full LL avoided"
      return .error alt
    | alts =>
      if here ≠ q.start then onStream (TokenStream.seek here)
      return .ok (some alts)

def accept (q : Question) (outer : Option Callers) (s : AutoState ConfigSet) : RecM Int := do
  match s.guards with
  | none => return s.prediction
  | some gs =>
    let stop := (← get).stream.index
    onStream (TokenStream.seek q.start)
    match ← evalGuards gs outer.isSome with
    | [] => throw (.recognition (← noViable q outer s.configs))
    | [alt] => return alt
    | alt :: rest =>
      remarkAmbiguity q false (some (alt :: rest)) s.configs stop
      return alt

/-- Where a state of the automaton leads over a symbol, explored unless it is known. -/
def targetOf (q : Question) (n : Nat) (s : AutoState ConfigSet) (t : Int) : RecM Target :=
  match if t + 1 < 0 then none else s.edgeAt (t + 1).toNat with
  | some target => pure target
  | none => computeTarget q n t

/-- Predicts again from the start of the choice, with the full stack. -/
def restart (q : Question) (outer : Option Callers) (alts : Option (List Int)) (s : AutoState ConfigSet) :
    RecM Int := do
  let set ← startSet q (outer.getD []) true
  remarkFullContext q alts s.configs (← get).stream.index
  predictFull q outer set

/-- Follows the input from a state of the automaton. -/
def run (q : Question) (outer : Option Callers) : Nat → Nat → Int → RecM Int
  | 0, _, _ => throw (.fault .exhausted)
  | fuel + 1, n, t => do
    let here ← stateAt q n
    match ← targetOf q n here t with
    | .failure => giveUp q outer here.configs
    | .state m =>
      let s ← stateAt q m
      if s.needsStack ∧ (← get).mode ≠ .sll then
        match ← settleConflict q outer s with
        | .error alt => return alt
        | .ok alts =>
          note (·.automata) do
            let shown := match outer with
              | some cs => Invocations.display cs.invocations
              | none => "None"
            return "ctx sensitive state " ++ shown ++ " in " ++ showState s m
          restart q outer alts s
      else if s.accepting then accept q outer s
      else run q outer fuel m (← step t)

/-- The start state of the automaton, if one is known for the present precedence. -/
def knownStart (q : Question) : RecM (Option Nat) := do
  let a ← automaton q
  if a.byPrecedence then ofFault (a.precedenceStart (← get).precedence) else return a.start

def findStart (q : Question) : RecM Nat := do
  let set ← startSet q [] false
  if (← automaton q).byPrecedence then
    let n ← addState q { configs := ← filterPrecedence q set }
    let a ← ofFault ((← automaton q).setPrecedenceStart (← get).precedence n)
    modifyAutomaton q fun _ => a
    return n
  else
    let n ← addState q { configs := set }
    modifyAutomaton q ({ · with start := some n })
    return n

def listed (w : Watch) : Bool := w.all || w.decisions

/-- The state to start from, and the rules in progress. -/
def beginning (q : Question) : RecM (Nat × Option Callers) := do
  match ← knownStart q with
  | some n => return (n, q.asked)
  | none =>
    let d := (← automaton q).decision
    let outer := q.asked.getD [{}]
    note listed do
      return s!"predictATN decision {d} exec LA(1)==" ++ (← showNext)
        ++ ", outerContext=" ++ outer.display (← get).spec.vocabulary.literal
    return (← findStart q, some outer)

/-- Predicts from the present place, which stays. -/
def answer (q : Question) : RecM Int := do
  let (n, outer) ← beginning q
  let d := (← automaton q).decision
  note listed do
    return s!"execATN decision {d} exec LA(1)==" ++ (← showNext)
      ++ (← showPlace)
  if (← get).watch.all then
    let s ← stateAt q n
    note (·.all) do return "s0 = " ++ showState s n
  let t ← onStream (TokenStream.symbol 1)
  let alt ← run q outer (← get).stepBound n t
  note (·.all) do return "DFA after predictATN: " ++ (← showAutomaton q)
  return alt

/-- The alternative to take at a decision. `callers` are the rules in progress as far as the
prediction may use them, `around` all of them. -/
def predict (decision : Int) (callers : Option Callers) (around : Callers) : RecM Int := do
  note listed do
    return s!"adaptivePredict decision {decision} exec LA(1)==" ++ (← showNext) ++ (← showPlace)
  let r ← get
  let start := r.stream.index
  match Sequence.resolve? r.automata.size decision with
  | none => throw (.fault .outOfRange)
  | some d =>
    try answer { decision := d, start, asked := callers, around }
    finally
      modify ({ · with merges := none })
      onStream (TokenStream.seek start)

end Prediction

end Throbac
