import Throbac.Network.Basic

/-!
# Reading a serialized network

A network is written as a list of numbers: a version, the sort of grammar, then states, rules,
modes, symbol sets, edges, decisions and lexer actions, each list behind its length. Positions of
states may count from the end. Reading stops at the first number that makes no sense; a network that
was read is checked against the shape every grammar has, unless the caller declines.
-/
namespace Throbac

structure DecodeOptions where
  verify : Bool := true
  /-- Gives every rule a second way through, by a symbol that stands for the whole rule. -/
  bypass : Bool := false
  deriving DecidableEq, Repr, Inhabited

namespace Network

namespace Decode

abbrev Reader := StateT (List Int) (Except Fault)

def int : Reader Int := do
  match ← get with
  | [] => throw .outOfRange
  | x :: rest =>
    set rest
    return x

def times {α : Type} (r : Reader α) : Nat → Reader (List α)
  | 0 => return []
  | n + 1 => do
    let x ← r
    let xs ← times r n
    return x :: xs

def counted {α : Type} (r : Reader α) : Reader (List α) := do
  let n ← int
  times r n.toNat

def version : Int := 4

/-- States while they are read; a serialized state may be absent. -/
abbrev States := Array (Option NetState)

/-- The position of one of `size` states, given by a signed number. -/
def locate (size : Nat) (i : Int) : Except Fault Nat :=
  match Sequence.resolve? size i with
  | some n => .ok n
  | none => .error .outOfRange

def update (states : States) (n : Nat) (f : NetState → Except Fault NetState) :
    Except Fault States :=
  match states.getD n none with
  | none => .error .noMember
  | some s => do return states.set! n (some (← f s))

/-- The entry of a table of makers; the number behind the last one is outside the table, and those
further on are reported. -/
def tableAt {α : Type} (table : List α) (code : Int) (bad : Fault) : Except Fault α :=
  if code > table.length then .error bad else Sequence.listAt table code

/-- A state and the number of the state it refers to: the loop-back state of a loop end, or the end
of a block. -/
def rawState : Reader (Option NetState × Option Int) := do
  let code ← int
  if code = 0 then return (none, none)
  let rule ← int
  let kind ← tableAt (none :: StateKind.all.map some) code (.badStateType code)
  match kind with
  | none => return (none, none)
  | some kind =>
    let reference ← if code = 12 ∨ kind.isBlockStart then some <$> int else pure none
    return (some (.ofKind kind rule), reference)

def linkLoop (raw : List (Option NetState × Option Int)) (states : States) : Except Fault States :=
  (raw.zipIdx).foldlM (fun states ((s, r), n) =>
    match s, r with
    | some s, some r =>
      if s.kind.isBlockStart then .ok states
      else do
        let target ← locate states.size r
        let found := (states.getD target none).map fun _ => target
        update states n fun s => .ok { s with loopBack := found }
    | _, _ => .ok states) states

def linkBlock (raw : List (Option NetState × Option Int)) (states : States) : Except Fault States :=
  (raw.zipIdx).foldlM (fun states ((s, r), n) =>
    match s, r with
    | some s, some r =>
      if s.kind.isBlockStart then do
        let target ← locate states.size r
        let found := (states.getD target none).map fun _ => target
        update states n fun s => .ok { s with endState := found }
      else .ok states
    | _, _ => .ok states) states

def markNonGreedy (s : NetState) : Except Fault NetState :=
  if s.nonGreedy.isSome || s.kind.takesAnyMark then .ok { s with nonGreedy := some true }
  else .error .noMember

def markPrecedence (s : NetState) : Except Fault NetState :=
  if s.precedenceRule.isSome || s.kind.takesAnyMark then .ok { s with precedenceRule := some true }
  else .error .noMember

def markStop (stop : Nat) (s : NetState) : Except Fault NetState :=
  if s.kind = .ruleStart || s.kind.takesAnyMark then .ok { s with stopState := some stop }
  else .error .noMember

def markDecision (i : Nat) (s : NetState) : Except Fault NetState :=
  if s.decision.isSome || s.kind.takesAnyMark then .ok { s with decision := some i }
  else .error .noMember

/-- Reads a list of state numbers and marks each state as its number is read. -/
def marked (mark : NetState → Except Fault NetState) (states : States) : Reader States := do
  let rec go (states : States) : Nat → Reader States
    | 0 => return states
    | n + 1 => do
      let i ← int
      let k ← locate states.size i
      go (← update states k mark) n
  let n ← int
  go states n.toNat

def readStates : Reader States := do
  let raw ← counted rawState
  let states := (raw.map Prod.fst).toArray
  let states ← linkLoop raw states
  let states ← linkBlock raw states
  let states ← marked markNonGreedy states
  marked markPrecedence states

/-- The rules: start states, stop states and, in a lexer, the symbols they make. -/
structure Rules where
  starts : Array Nat
  stops : Array (Option Nat)
  tokenTypes : Option (Array Int)
  deriving Inhabited

/-- Gives every rule its stop state, the last one that names the rule. -/
def assignStops (starts : Array Nat) (states : States) :
    Except Fault (States × Array (Option Nat)) :=
  states.toList.zipIdx.foldlM (fun (states, stops) (s, n) =>
    match s with
    | some s =>
      if s.kind = .ruleStop then
        match Sequence.resolve? starts.size s.rule with
        | none => .error .outOfRange
        | some r => do
          let states ← update states (starts.getD r 0) (markStop n)
          return (states, stops.set! r (some n))
      else .ok (states, stops)
    | none => .ok (states, stops)) (states, Array.replicate starts.size none)

def readRules (sort : GrammarSort) (states : States) : Reader (States × Rules) := do
  let rules ← counted do
    let start ← int
    let k ← locate states.size start
    let type ← if sort = .lexer then int else pure 0
    return (k, type)
  let starts := (rules.map Prod.fst).toArray
  let types := (rules.map Prod.snd).toArray
  let (states, stops) ← assignStops starts states
  return (states, ⟨starts, stops, if sort = .lexer then some types else none⟩)

def readModes (states : States) : Reader (List Nat) :=
  counted do
    let s ← int
    locate states.size s

def readSet : Reader SymbolSet := do
  let n ← int
  let withEof ← int
  let start : SymbolSet := if withEof ≠ 0 then .single Symbol.eof else .empty
  let ranges ← times (do
    let lo ← int
    let hi ← int
    return (⟨lo, hi + 1⟩ : Interval)) n.toNat
  return ranges.foldl SymbolSet.insert start

/-- The edge with the given code and arguments among `size` states, some of which may be absent. -/
def edgeOf (size : Nat) (absent : List Nat) (sets : List SymbolSet) (code a b c : Int)
    (target : Nat) : Except Fault Edge := do
  let present (n : Nat) (l : Label) : Except Fault Edge :=
    if n ∈ absent then .error .nullTarget else .ok ⟨n, l⟩
  if code > 11 then throw (.badEdgeType code)
  match Sequence.resolve? 11 code with
  | none => throw .outOfRange
  | some 1 => present target (.epsilon (-1))
  | some 2 => present target (.range (if c ≠ 0 then Symbol.eof else a) b)
  | some 3 =>
    let start ← locate size a
    present start (.call b c target)
  | some 4 => present target (.predicate a b (c ≠ 0))
  | some 5 => present target (.atom (if c ≠ 0 then Symbol.eof else a))
  | some 6 => present target (.action a b (c ≠ 0))
  | some 7 =>
    let s ← Sequence.listAt sets a
    present target (.set s)
  | some 8 =>
    let s ← Sequence.listAt sets a
    present target (.notSet s)
  | some 9 => present target .wildcard
  | some 10 => present target (.precedence a)
  | some _ => throw .wrongType

abbrev Placed := Nat × Edge

/-- Reads one edge. The state it leaves must be there. -/
def readEdge (size : Nat) (absent : List Nat) (sets : List SymbolSet) : Reader Placed := do
  let source ← int
  let target ← int
  let code ← int
  let a ← int
  let b ← int
  let c ← int
  let target ← locate size target
  let edge ← edgeOf size absent sets code a b c target
  let source ← locate size source
  if source ∈ absent then throw .noMember
  return (source, edge)

/-- Puts an edge before the first one of a later state. -/
def insertPlaced (e : Placed) : List Placed → List Placed
  | [] => [e]
  | f :: fs => if e.1 ≤ f.1 then e :: f :: fs else f :: insertPlaced e fs

/-- The edges by the states they leave; those of one state stay in order. -/
def sortPlaced (es : List Placed) : List Placed := es.foldr insertPlaced []

/-- Hands sorted edges out to the states from number `n` on. -/
def handOut : Nat → List (Option NetState) → List Placed → List (Option NetState)
  | _, [], _ => []
  | n, s :: ss, es =>
    let (own, rest) := es.span (·.1 ≤ n)
    s.map (own.foldl fun s e => s.addEdge e.2) :: handOut (n + 1) ss rest

/-- Puts every edge behind the earlier ones of its state. -/
def attach (states : States) (es : List Placed) : States :=
  (handOut 0 states.toList (sortPlaced es)).toArray

def absentStates (states : States) : List Nat :=
  states.toList.zipIdx.filterMap fun (s, n) => if s.isNone then some n else none

def readEdges (sets : List SymbolSet) (states : States) : Reader States := do
  return attach states (← counted (readEdge states.size (absentStates states) sets))

def complete (states : States) : Except Fault (Array NetState) := do
  let all ← states.toList.mapM fun
    | some s => .ok s
    | none => .error .noMember
  return all.toArray

/-- Whether the rule of a start state is left recursive. -/
def isPrecedenceRule (states : Array NetState) (starts : Array Nat) (rule : Int) :
    Except Fault Bool := do
  let start ← Sequence.arrayAt starts rule
  match (states.getD start default).precedenceRule with
  | some b => return b
  | none => throw .noMember

/-- The edge back behind a call, with the stop state it leaves. -/
def returnOf (rules : Rules) (states : States) (e : Edge) : Except Fault (Option Placed) :=
  match e.label with
  | .call _ precedence follow => do
    let rule := ((states.getD e.target none).getD default).rule
    let start ← Sequence.arrayAt rules.starts rule
    let isPrecedence ← match (states.getD start none).bind NetState.precedenceRule with
      | some b => .ok b
      | none => .error .noMember
    let outermost := if isPrecedence ∧ precedence = 0 then rule else -1
    if (states.getD follow none).isNone then throw .nullTarget
    match ← Sequence.arrayAt rules.stops rule with
    | none => throw .noMember
    | some stop => return some (stop, ⟨follow, .epsilon outermost⟩)
  | _ => .ok none

/-- Gives the stop state of every called rule an edge back to each caller. An absent state ends the
pass where it stands. -/
def addReturns (rules : Rules) (states : States) : Except Fault States := do
  let returns ← states.toList.mapM fun
    | none => .error .noMember
    | some s => s.edges.toList.filterMapM (returnOf rules states)
  return attach states returns.flatten

/-- Points block ends at their starts and loop entries at their loop-back states. -/
def linkBack (states : Array NetState) : Except Fault (Array NetState) :=
  states.toList.zipIdx.foldlM (fun states (s, n) => do
    let states ← if s.kind.isBlockStart then
        match s.endState with
        | none => .error .brokenNetwork
        | some e =>
          let last := states.getD e default
          if last.kind ≠ .blockEnd then .error .noMember
          else if last.startState.isSome then .error .brokenNetwork
          else .ok (states.set! e { last with startState := some n })
      else .ok states
    let entry := match s.kind with
      | .plusLoopBack => some StateKind.plusBlockStart
      | .starLoopBack => some StateKind.starLoopEntry
      | _ => none
    return s.edges.foldl (fun states e =>
      let t := states.getD e.target default
      if some t.kind = entry then states.set! e.target { t with loopBack := some n } else states)
      states) states

/-- Reads the decisions and numbers their states. -/
def readDecisions (states : Array NetState) : Reader (Array NetState × List Nat) := do
  let rec go (states : Array NetState) (i : Nat) (ds : List Nat) :
      Nat → Reader (Array NetState × List Nat)
    | 0 => return (states, ds.reverse)
    | n + 1 => do
      let d ← int
      match Sequence.resolve? states.size d with
      | none => throw .outOfRange
      | some k =>
        let s ← markDecision i (states.getD k default)
        go (states.set! k s) (i + 1) (k :: ds) n
  let n ← int
  go states 0 [] n.toNat

/-- The lexer action of a code and two data words. -/
def actionOf (code a b : Int) : Except Fault LexerAction :=
  tableAt [.channel a, .custom a b, .mode a, .more, .popMode, .pushMode a, .skip, .type a] code
    (.badActionType code)

def readAction : Reader LexerAction := do
  let code ← int
  let a ← int
  let b ← int
  actionOf code a b

/-- Whether the state is the choice of a left-recursive rule to go on: its last edge leaves the loop
straight to the end of the rule. -/
def leavesRule (states : Array NetState) (s : NetState) : Except Fault Bool :=
  match s.edges.back? with
  | none => .error .outOfRange
  | some e =>
    let last := states.getD e.target default
    .ok (last.kind == .loopEnd && last.epsilonOnly &&
      (match last.edges[0]?.map Edge.target with
        | some t => (states.getD t default).kind == .ruleStop
        | none => false))

/-- Marks the choices of left-recursive rules to go on. -/
def markPrecedenceDecisions (starts : Array Nat) (states : Array NetState) :
    Except Fault (Array NetState) :=
  states.toList.zipIdx.foldlM (fun states (s, n) => do
    if s.kind ≠ .starLoopEntry then return states
    if !(← isPrecedenceRule states starts s.rule) then return states
    if ← leavesRule states s then return states.set! n { s with precedenceDecision := true }
    return states) states

def check (b : Bool) : Except Fault Unit := if b then .ok () else .error .brokenNetwork

def verifyState (states : Array NetState) (s : NetState) : Except Fault Unit := do
  let kindOf (k : Nat) : Option StateKind := s.edges[k]?.map fun e => (states.getD e.target default).kind
  check (s.epsilonOnly || s.edges.size ≤ 1)
  if s.kind = .plusBlockStart then check s.loopBack.isSome
  if s.kind = .starLoopEntry then
    check s.loopBack.isSome
    check (s.edges.size == 2)
    match kindOf 0 with
    | some .starBlockStart =>
      check (kindOf 1 == some .loopEnd)
      check (!s.prefersExit)
    | some .loopEnd =>
      check (kindOf 1 == some .starBlockStart)
      check s.prefersExit
    | _ => throw .brokenNetwork
  if s.kind = .starLoopBack then
    check (s.edges.size == 1)
    check (kindOf 0 == some .starLoopEntry)
  if s.kind = .loopEnd then check s.loopBack.isSome
  if s.kind = .ruleStart then check s.stopState.isSome
  if s.kind.isBlockStart then check s.endState.isSome
  if s.kind = .blockEnd then check s.startState.isSome
  if s.kind.isDecision then check (s.edges.size ≤ 1 || (s.decision.getD (-1)) ≥ 0)
  else check (s.edges.size ≤ 1 || s.kind == .ruleStop)

def verifyStates (options : DecodeOptions) (net : Network) : Except Fault Unit :=
  if options.verify then net.states.toList.forM (verifyState net.states) else .ok ()

/-- The choice at which a left-recursive rule ends, with the edge that enters its loop again. -/
def precedenceEnd (net : Network) (rule : Nat) : Except Fault (Nat × Nat × Nat) := do
  let found ← net.states.zipIdx.foldlM (fun (acc : Option Nat) (s, n) => do
    if acc.isSome then return acc
    if s.rule ≠ rule ∨ s.kind ≠ .starLoopEntry then return none
    return if ← leavesRule net.states s then some n else none) none
  match found with
  | none => throw .noPrecedenceEnd
  | some n =>
    match (net.state n).loopBack with
    | none => throw .noMember
    | some l => if (net.edges l).isEmpty then throw .outOfRange else return (n, l, 0)

/-- Gives a rule a way through by its own symbol. A rule that has edges already cannot be given
one. -/
def addBypass (net : Network) (rule : Nat) : Except Fault Network := do
  let first := net.states.size
  let last := first + 1
  let start := net.starts.getD rule 0
  let opening : NetState :=
    { NetState.ofKind .blockStart rule with
      endState := some last, decision := some net.decisions.size }
  let closing : NetState := { NetState.ofKind .blockEnd rule with startState := some first }
  let net := { net with
    states := (net.states.push opening).push closing
    decisions := net.decisions.push first }
  let isPrecedence ← isPrecedenceRule net.states net.starts rule
  let (finish, spared) ← if isPrecedence then do
      let (n, l, k) ← precedenceEnd net rule
      pure (some n, some (l, k))
    else pure (net.stops.getD rule none, none)
  let states := net.states.mapIdx fun n s =>
    { s with edges := s.edges.mapIdx fun k e =>
        if some e.target = finish ∧ spared ≠ some (n, k) then { e with target := last } else e }
  if !(states.getD start default).edges.isEmpty then throw .outOfRange
  let direct := last + 1
  let symbol := (net.tokenTypes.getD #[]).getD rule 0
  let put (states : Array NetState) (n : Nat) (e : Edge) :=
    states.set! n ((states.getD n default).addEdge e)
  let states := put states start ⟨first, .epsilon (-1)⟩
  let states := match finish with
    | some n => put states last ⟨n, .epsilon (-1)⟩
    | none => states
  let states := states.push ((NetState.ofKind .basic 0).addEdge ⟨last, .atom symbol⟩)
  let states := put states first ⟨direct, .epsilon (-1)⟩
  return { net with states }

def addBypasses (net : Network) : Except Fault Network :=
  let count := net.starts.size
  let types := (Array.range count).map fun i : Nat => net.maxSymbol + i + 1
  (List.range count).foldlM addBypass { net with tokenTypes := some types }

def readNetwork (options : DecodeOptions) : Reader Network := do
  let found ← int
  if found ≠ version then throw (.wrongVersion found version)
  let sort ← match ← int with
    | 0 => pure GrammarSort.lexer
    | 1 => pure GrammarSort.parser
    | _ => throw .noKey
  let maxSymbol ← int
  let states ← readStates
  let (states, rules) ← readRules sort states
  let modes ← readModes states
  let sets ← counted readSet
  let states ← readEdges sets states
  let states ← addReturns rules states
  let states ← complete states
  let states ← linkBack states
  let (states, decisions) ← readDecisions states
  let actions ← if sort = .lexer then some <$> counted readAction else pure none
  let states ← markPrecedenceDecisions rules.starts states
  let net : Network := {
    sort, maxSymbol, states
    decisions := decisions.toArray
    starts := rules.starts
    stops := rules.stops
    tokenTypes := rules.tokenTypes
    modes := modes.toArray
    actions := actions.map List.toArray }
  verifyStates options net
  if options.bypass && sort == .parser then
    let net ← addBypasses net
    verifyStates options net
    return net
  return net

end Decode

def decode (data : List Int) (options : DecodeOptions := {}) : Except Fault Network :=
  Prod.fst <$> (Decode.readNetwork options).run data

end Network

end Throbac
