import Throbac.Lexing.Closure
import Throbac.Automaton
import Throbac.Report

/-!
# Lexers

A lexer cuts a text into tokens. At each place it takes the longest prefix that some rule of the
present mode matches, and of several rules the first. The exploration of the network is cached in one
automaton per mode. A place where no rule matches is reported and one character is skipped.
-/
namespace Throbac

structure LexerSpec where
  network : Network
  names : Array String := #[]
  /-- Decides a predicate by rule, number and the present column. -/
  predicate : Int → Int → Int → Except Fault Bool := fun _ _ _ => .ok true
  /-- Runs a custom action, given its rule and number, the position in the text and the text matched
  so far. It may give the token another type. -/
  action : Int → Int → Int → String → Except Fault (Option Int) := fun _ _ _ _ => .error .noMember
  /-- Whether a text that cannot be read is an error of the caller. -/
  strict : Bool := false

instance : Inhabited LexerSpec := ⟨{ network := {} }⟩

structure ActionCall where
  rule : Int
  action : Int
  index : Int
  text : String
  deriving DecidableEq, Repr, Inhabited

structure Lexer where
  spec : LexerSpec
  input : Option CharStream := none
  factory : TokenFactory := {}
  token : Option Token := none
  tokenStart : Int := -1
  tokenLine : Int := -1
  tokenColumn : Int := -1
  hitEof : Bool := false
  channel : Int := 0
  type : Int := 0
  /-- The modes to return to, the last entered at the end. -/
  modeStack : Array Int := #[]
  mode : Int := 0
  text : Option String := none
  line : Int := 1
  column : Int := 0
  matchStart : Int := -1
  matchMode : Int := 0
  automata : Array (Automaton LexConfigs) := #[]
  /-- The next unused stamp for a pinned action. -/
  fresh : Nat := 0
  calls : Array ActionCall := #[]
  reports : Array Report := #[]
  traced : Bool := false
  trace : Array String := #[]
  deriving Inhabited

/-- Work of a lexer; its state survives a fault. -/
abbrev LexM := EStateM Fault Lexer

namespace Lexer

def skipType : Int := -3

def moreType : Int := -2

/-- One empty automaton for each decision of the network. -/
def freshAutomata (net : Network) : Array (Automaton LexConfigs) :=
  net.decisions.mapIdx fun i n => .ofDecision n i (net.state n).precedenceDecision

def ofSpec (spec : LexerSpec) (input : Option CharStream) : Lexer :=
  { spec, input
    automata := freshAutomata spec.network
    fresh := (spec.network.actions.getD #[]).size }

def theInput : LexM CharStream := do
  match (← get).input with
  | some s => return s
  | none => throw .noMember

def modifyInput (f : CharStream → CharStream) : LexM Unit :=
  modify fun l => { l with input := l.input.map f }

def note (line : Unit → String) : LexM Unit := do
  if (← get).traced then modify fun l => { l with trace := l.trace.push (line ()) }

/-- Takes one character and counts lines and columns. -/
def consume : LexM Unit := do
  let s ← theInput
  let newline := s.next = ('\n'.toNat : Int)
  modify fun l =>
    if newline then { l with line := l.line + 1, column := 0 } else { l with column := l.column + 1 }
  let s ← MonadExcept.ofExcept s.consume
  modifyInput fun _ => s

def currentText : LexM String := do
  let l ← get
  match l.text with
  | some t => return t
  | none =>
    let s ← theInput
    return s.text l.matchStart (s.index - 1)

def popMode : LexM Int := do
  let l ← get
  match l.modeStack.back? with
  | none => throw .emptyModeStack
  | some m =>
    if l.traced then throw .wrongType
    set { l with modeStack := l.modeStack.pop, mode := m }
    return m

def pushMode (m : Int) : LexM Unit :=
  modify fun l => { l with modeStack := l.modeStack.push l.mode, mode := m }

def runAction : LexerAction → LexM Unit
  | .channel n => modify fun l => { l with channel := n }
  | .custom rule action => do
    let l ← get
    let s ← theInput
    let t ← currentText
    let type ← MonadExcept.ofExcept (l.spec.action rule action s.index t)
    modify fun l =>
      { l with calls := l.calls.push ⟨rule, action, s.index, t⟩, type := type.getD l.type }
  | .mode n => modify fun l => { l with mode := n }
  | .more => modify fun l => { l with type := moreType }
  | .popMode => do let _ ← popMode
  | .pushMode n => pushMode n
  | .skip => modify fun l => { l with type := skipType }
  | .type n => modify fun l => { l with type := n }
  | .indexed _ a => runAction a

/-- Runs actions in order. A pinned action runs at its offset from `start`, another custom action at
the end of the match; afterwards, and after a fault, the text stands at the end of the match. -/
def runActions (start : Int) (actions : ActionList) : LexM Unit := do
  let stop := (← theInput).index
  try
    for a in actions do
      match a.action with
      | .indexed offset inner =>
        modifyInput (·.seek (start + offset))
        runAction inner
      | .custom rule index =>
        modifyInput (·.seek stop)
        runAction (.custom rule index)
      | other => runAction other
  finally
    modifyInput (·.seek stop)

/-- The column after the next character is read. -/
def columnBehind (l : Lexer) (s : CharStream) : Int :=
  if s.next = ('\n'.toNat : Int) then 0 else l.column + 1

/-- What the exploration of the network may ask at the present place. A predicate behind the next
character sees the column behind it, and there must be such a character. -/
def surroundings (ahead eof : Bool) : LexM Lexing.Surroundings := do
  let l ← get
  let s ← theInput
  return {
    network := l.spec.network
    predicate := fun r p =>
      if !ahead then l.spec.predicate r p l.column
      else do
        let _ ← s.consume
        l.spec.predicate r p (l.columnBehind s)
    throughEof := eof
    names := l.spec.names
    traced := l.traced
    offset := s.index - l.matchStart }

/-- Runs an exploration and gives the configurations it collects. -/
def explore (m : Lexing.CollectM Unit) : LexM LexConfigs := fun l =>
  match m { fresh := l.fresh } with
  | .ok _ c => .ok c.configs { l with fresh := c.fresh, trace := l.trace ++ c.trace }
  | .error e c => .error e { l with fresh := c.fresh, trace := l.trace ++ c.trace }

def automatonAt (mode : Int) : LexM Nat := do
  match Sequence.resolve? (← get).automata.size mode with
  | some d => return d
  | none => throw .outOfRange

def modifyAutomaton (d : Nat) (f : Automaton LexConfigs → Automaton LexConfigs) : LexM Unit :=
  modify fun l => { l with automata := l.automata.modify d f }

def stateAt (d n : Nat) : LexM (AutoState LexConfigs) := do
  return ((← get).automata.getD d {}).states.getD n default

/-- The symbol and actions of the first configuration at the end of a rule. -/
def verdict (net : Network) (configs : LexConfigs) : Except Fault (AutoState LexConfigs) :=
  match configs.configs.find? (fun c => (net.state c.state).isRuleStop) with
  | none => .ok { configs }
  | some c =>
    match net.tokenTypes with
    | none => .error .wrongType
    | some types => do
      let prediction ← Sequence.arrayAt types (net.state c.state).rule
      return { configs, accepting := true, actions := c.actions, prediction }

/-- The state of a set of configurations, added unless it is known. -/
def addState (d : Nat) (configs : LexConfigs) : LexM Nat := do
  let l ← get
  let configs := { configs with hasGuard := false }
  let proposed ← MonadExcept.ofExcept (verdict l.spec.network configs)
  let states := (l.automata.getD d {}).states
  match states.findIdx? (fun s => s.configs = configs) with
  | some n => return n
  | none =>
    modifyAutomaton d fun a => { a with states := a.states.push proposed }
    return states.size

/-- The largest character that has an edge of its own. -/
def maxEdge : Int := 127

def showState (d n : Nat) : LexM String := do
  let s ← stateAt d n
  return s!"{n}:" ++ s.configs.display ++ (if s.accepting then s!"=>{s.prediction}" else "")

def addEdge (d s : Nat) (t : Int) (target : Target) : LexM Unit := do
  if t < 0 ∨ t > maxEdge then return
  if (← get).traced then
    let goal ← match target with
      | .state n => showState d n
      | .failure => pure "2147483647:[]"
    let source ← showState d s
    note fun _ => "EDGE " ++ source ++ " -> " ++ goal ++ " upon "
      ++ String.singleton (Char.ofNat t.toNat)
  modifyAutomaton d (·.modify s fun st => st.setEdge 128 t.toNat target)

/-- Where a symbol leads from a state, by its edge or by exploration. -/
def step (d s : Nat) (t : Int) : LexM Target := do
  let st ← stateAt d s
  let known := if t < 0 ∨ t > maxEdge then none else st.edgeAt t.toNat
  match known with
  | some target =>
    note fun _ => s!"reuse state {s} edge to " ++ (match target with
      | .state n => toString n
      | .failure => "2147483647")
    return target
  | none =>
    let env ← surroundings true (t = Symbol.eof)
    let reach ← explore (Lexing.advance env st.configs t)
    if reach.configs.isEmpty then
      if !reach.hasGuard then addEdge d s t .failure
      return .failure
    let n ← addState d reach
    if !reach.hasGuard then addEdge d s t (.state n)
    return .state n

structure Accepted where
  index : Int
  line : Int
  column : Int
  state : Nat

def capture (d s : Nat) (previous : Option Accepted) : LexM (Option Accepted) := do
  if (← stateAt d s).accepting then
    let l ← get
    return some ⟨(← theInput).index, l.line, l.column, s⟩
  else return previous

/-- Follows the text from a state as far as any rule goes. Gives the last match and the symbol at
which no rule went on. -/
def scan (d : Nat) : Nat → Nat → Option Accepted → LexM (Option Accepted × Int)
  | 0, _, _ => throw .exhausted
  | fuel + 1, s, accepted => do
    let t := (← theInput).next
    if (← get).traced then
      let st ← stateAt d s
      note fun _ => "execATN loop starting closure: " ++ st.configs.display
    match ← step d s t with
    | .failure => return (accepted, t)
    | .state n =>
      if t ≠ Symbol.eof then consume
      let accepts := (← stateAt d n).accepting
      let accepted ← capture d n accepted
      if accepts ∧ t = Symbol.eof then return (accepted, t)
      scan d fuel n accepted

/-- Ends a match: the text goes back to where the last rule matched and the actions run. Gives the
symbol, or nothing if no rule matched. -/
def conclude (d : Nat) (accepted : Option Accepted) (t : Int) : LexM (Option Int) := do
  match accepted with
  | some a =>
    let st ← stateAt d a.state
    note fun _ => "ACTION " ++ (if st.actions.isSome then "<LexerActionExecutor>" else "None")
    modifyInput (·.seek a.index)
    modify fun l => { l with line := a.line, column := a.column }
    match st.actions with
    | some as => runActions (← get).matchStart as
    | none => pure ()
    return some st.prediction
  | none =>
    if t = Symbol.eof ∧ (← theInput).index = (← get).matchStart then return some Symbol.eof
    return none

def scanFrom (d s : Nat) : LexM (Option Int) := do
  if (← get).traced then
    let st ← stateAt d s
    note fun _ => "start state closure=" ++ st.configs.display
  let input ← theInput
  let fuel := ((input.size : Int) - input.index).toNat + (← get).spec.network.states.size + 2
  let (accepted, t) ← scan d fuel s (← capture d s none)
  conclude d accepted t

def scanNetwork (d : Nat) (mode : Int) : LexM (Option Int) := do
  let net := (← get).spec.network
  let origin ← MonadExcept.ofExcept (Sequence.arrayAt net.modes mode)
  note fun _ => s!"matchATN mode {mode} start: {origin}"
  let env ← surroundings false false
  let configs ← explore (Lexing.start env origin)
  let s ← addState d configs
  if !configs.hasGuard then modifyAutomaton d ({ · with start := some s })
  let r ← scanFrom d s
  if r.isSome ∧ (← get).traced then
    let shown ← MonadExcept.ofExcept (((← get).automata.getD d {}).display Automaton.charLabel)
    note fun _ => "DFA after matchATN: " ++ shown
  return r

/-- The longest match of the mode at the present place: its symbol, or nothing. -/
def matchIn (mode : Int) : LexM (Option Int) := do
  let index := (← theInput).index
  modify fun l => { l with matchMode := mode, matchStart := index }
  let d ← automatonAt mode
  match ((← get).automata.getD d {}).start with
  | some s => scanFrom d s
  | none => scanNetwork d mode

def emit : LexM Token := do
  let l ← get
  let s ← theInput
  let t := l.factory.create (some s.chars) l.type l.text l.channel l.tokenStart (s.index - 1)
    (some l.tokenLine) l.tokenColumn
  set { l with token := some t }
  return t

def emitEof : LexM Token := do
  let l ← get
  let s ← theInput
  let t := l.factory.create (some s.chars) Symbol.eof none 0 s.index (s.index - 1) (some l.line)
    l.column
  set { l with token := some t }
  return t

/-- Reports that no rule matches and skips a character. -/
def reject : LexM Unit := do
  let l ← get
  let s ← theInput
  let message := "token recognition error at: '" ++ Text.escape (s.text l.tokenStart s.index) ++ "'"
  set { l with
    reports := l.reports.push
      (.syntaxError (some l.tokenLine) l.tokenColumn message none (some .unreadable)) }
  if l.spec.strict then throw .wrongType
  if s.next ≠ Symbol.eof then consume

/-- One match. What cannot be read is reported and dropped. -/
def matchOnce : LexM Int := do
  match ← matchIn (← get).mode with
  | some t => return t
  | none =>
    reject
    return skipType

/-- Gives the token the type of its match, unless an action has given it one. Notes when the text is
at its end. -/
def setType (type : Int) : LexM Int := do
  if (← theInput).next = Symbol.eof then modify fun l => { l with hitEof := true }
  modify fun l => if l.type = Symbol.invalid then { l with type } else l
  return (← get).type

/-- Matches until a token is complete or dropped. Gives whether it is complete. -/
def matchToken : Nat → LexM Bool
  | 0 => throw .exhausted
  | fuel + 1 => do
    modify fun l => { l with type := Symbol.invalid }
    let type ← setType (← matchOnce)
    if type = skipType then return false
    if type = moreType then matchToken fuel
    else return true

def findToken : Nat → LexM Token
  | 0 => throw .exhausted
  | fuel + 1 => do
    if (← get).hitEof then emitEof
    else
      let index := (← theInput).index
      modify fun l => { l with
        token := none, channel := 0, tokenStart := index, tokenColumn := l.column
        tokenLine := l.line, text := none }
      if ← matchToken (fuel + 1) then
        match (← get).token with
        | some t => return t
        | none => emit
      else findToken fuel

def nextToken : LexM Token := do
  match (← get).input with
  | none => throw .noInput
  | some s => findToken (((s.size : Int) - s.index).toNat + 4)

/-- Goes back to the start of the text. What is cached stays. -/
def reset : LexM Unit :=
  modify fun l =>
    { l with
      input := l.input.map (·.seek 0), token := none, type := Symbol.invalid, channel := 0
      tokenStart := -1, tokenColumn := -1, tokenLine := -1, text := none, hitEof := false
      mode := 0, modeStack := #[], matchStart := -1, line := 1, column := 0, matchMode := 0 }

def setInput (input : Option CharStream) : LexM Unit := do
  modify ({ · with input := none })
  reset
  modify ({ · with input })

def allTokens : LexM (List Token) := do
  let rec go (acc : List Token) : Nat → LexM (List Token)
    | 0 => throw .exhausted
    | fuel + 1 => do
      let t ← nextToken
      if t.isEof then return acc.reverse
      go (t :: acc) fuel
  match (← get).input with
  | none => throw .noInput
  | some s => go [] (((s.size : Int) - s.index).toNat + 2)

/-- Skips a character after an error that is not the lexer's own. -/
def skipCharacter : LexM Unit := do
  let s ← theInput
  if s.next ≠ Symbol.eof then
    let s ← MonadExcept.ofExcept s.consume
    modifyInput fun _ => s

end Lexer

end Throbac
