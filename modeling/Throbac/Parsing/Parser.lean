import Throbac.Tree.Display
import Throbac.Tree.Event
import Throbac.Prediction.Predict

/-!
# Parsers

A parser keeps the phrases in progress as a stack, innermost first. A phrase joins the parts of the
one below it when it is closed, provided that it was attached when it was opened. Listeners hear of
phrases as they are opened and closed and of tokens as they are read.
-/
namespace Throbac

structure Frame where
  info : NodeInfo
  parts : List ParseTree := []
  /-- Whether the phrase will be a part of the one below. -/
  attached : Bool := false
  deriving Inhabited

namespace Frame

def close (f : Frame) : ParseTree := .node f.info f.parts.reverse

def add (f : Frame) (t : ParseTree) : Frame :=
  { f with parts := t :: f.parts, info := { f.info with listed := true } }

/-- The phrase under the kind of its alternative. Of its parts it keeps the skipped tokens, and it
forgets a failure. -/
def become (f : Frame) (kind : NodeKind) : Frame :=
  { f with
    info := { kind, invoking := f.info.invoking, start := f.info.start, stop := f.info.stop
              listed := f.info.listed }
    parts := f.parts.filter fun
      | .leaf _ e => e
      | .node .. => false }

end Frame

inductive Listener
  | events
  /-- Records what may come next, and whether the symbol may. -/
  | probe (symbol : Int)
  | tracer
  /-- Refuses phrases of the kind when they are left. -/
  | refusal (kind : NodeKind)
  deriving DecidableEq, Repr, Inhabited

inductive Occasion
  | enter
  | terminal
  | error
  deriving DecidableEq, Repr, Inhabited

def Occasion.name : Occasion → String
  | enter => "enter"
  | terminal => "terminal"
  | error => "error"

structure Probe where
  occasion : Occasion
  state : Int
  callers : List String
  expected : Except Fault String
  withinRule : String
  isExpected : Except Fault Bool
  precedence : Int
  inExpr : Bool

structure Parser where
  core : Recognizer
  stack : List Frame := []
  building : Bool := true
  bails : Bool := false
  /-- Whether an error was reported and no token matched since. -/
  recovering : Bool := false
  lastErrorIndex : Int := -1
  lastErrorStates : Option (List Int) := none
  listeners : Option (List Listener) := none
  tracing : Bool := false
  /-- The names handed to the parser for look-up, which may be absent. -/
  naming : Option (Option (List String)) := none
  refusals : Nat := 0
  /-- The actions of the grammar that were run, by rule and number. -/
  performed : Array (Int × Int) := #[]
  events : Array Event := #[]
  probes : Array Probe := #[]
  printed : Array String := #[]
  deriving Inhabited

/-- Work of a parser; its state survives an interruption. -/
abbrev ParseM := EStateM Interruption Parser

namespace Parser

def ofSpec (spec : ParserSpec) (stream : TokenStream) : Parser :=
  { core := .ofSpec spec stream }

def onCore {α : Type} (m : RecM α) : ParseM α := fun p =>
  match m p.core with
  | .ok x core => .ok x { p with core }
  | .error e core => .error e { p with core }

def onStream {α : Type} (m : StreamM α) : ParseM α := onCore (Recognizer.onStream m)

def ofFault {α : Type} : Except Fault α → ParseM α
  | .ok x => pure x
  | .error e => throw (.fault e)

def onLooks {α : Type} (m : Network → EStateM Fault LookTable α) : ParseM α := fun p =>
  match m p.core.spec.network p.core.looks with
  | .ok x looks => .ok x { p with core := { p.core with looks } }
  | .error e looks => .error (.fault e) { p with core := { p.core with looks } }

def current : ParseM Token := onStream TokenStream.current

def symbol (k : Int) : ParseM Int := onStream (TokenStream.symbol k)

def setState (n : Int) : ParseM Unit := modify fun p => { p with core := { p.core with state := n } }

def print (line : String) : ParseM Unit := modify fun p => { p with printed := p.printed.push line }

def callers (p : Parser) : Callers := p.stack.map fun f => ⟨f.info.kind.rule, f.info.invoking⟩

def top : ParseM Frame := do
  match (← get).stack with
  | f :: _ => return f
  | [] => throw (.fault .noMember)

def modifyTop (f : Frame → Frame) : ParseM Unit := do
  match (← get).stack with
  | t :: rest => modify ({ · with stack := f t :: rest })
  | [] => throw (.fault .noMember)

/-- Takes the innermost phrase off. It joins the one below if it is attached. -/
def pop : ParseM ParseTree := do
  match (← get).stack with
  | [] => throw (.fault .noMember)
  | f :: rest =>
    let t := f.close
    let rest := match rest with
      | g :: below => if f.attached then g.add t :: below else g :: below
      | [] => []
    modify ({ · with stack := rest })
    return t

/-- The tree of the phrase at a height of the stack, with those above it as if they were closed. -/
def treeAt (p : Parser) (height : Nat) : Option ParseTree :=
  let above := p.stack.take (p.stack.length + 1 - height)
  match above with
  | [] => none
  | f :: rest =>
    some ((rest.foldl (fun (t, attached) g =>
      ((if attached then g.add t else g).close, g.attached)) (f.close, f.attached)).1)

/-- Marks where the innermost phrase ends: behind the token read last. -/
def markStop : ParseM Unit := do
  let stop ← onStream (TokenStream.lookAhead (-1))
  modifyTop fun f => { f with info := { f.info with stop } }

/-- The symbols that may come next. Also says whether they are just those remembered for the
state. -/
def expectedFrom : ParseM (SymbolSet × Option Nat) := do
  let p ← get
  onLooks fun net => LookTable.expected net p.core.state p.callers.invocations

def expected : ParseM SymbolSet := do return (← expectedFrom).1

/-- The symbols that may come next within the rule. -/
def expectedWithin : ParseM SymbolSet := do
  let p ← get
  let n ← ofFault (p.core.spec.network.stateAt p.core.state)
  onLooks fun net => LookTable.next net n

def isExpected (symbol : Int) : ParseM Bool := do
  let following ← expectedWithin
  if following.contains symbol then return true
  if !following.contains Symbol.epsilon then return false
  go following (← get).callers.invocations
where
  go (following : SymbolSet) : List Int → ParseM Bool
    | [] => return following.contains Symbol.epsilon && symbol == Symbol.eof
    | c :: rest => do
      if 0 ≤ c ∧ following.contains Symbol.epsilon then
        let net := (← get).core.spec.network
        let n ← ofFault (net.stateAt c)
        let follow ← ofFault (net.followOf n)
        let following ← onLooks fun net => LookTable.next net follow
        if following.contains symbol then return true
        go following rest
      else return following.contains Symbol.epsilon && symbol == Symbol.eof

def showSymbols (s : SymbolSet) : ParseM String := do
  ofFault (s.display (← get).core.spec.vocabulary)

def callerNames : ParseM (List String) := do
  let p ← get
  ofFault (p.callers.names p.core.spec.ruleNames)

def attempt {α : Type} (m : ParseM α) : ParseM (Except Fault α) := do
  try return .ok (← m)
  catch
    | .fault f => return .error f
    | e => throw e

def probe (occasion : Occasion) (symbol : Int) : ParseM Unit := do
  let callers ← callerNames
  let expected ← attempt do showSymbols (← expected)
  let withinRule ← showSymbols (← expectedWithin)
  let isExpected ← attempt (isExpected symbol)
  let p ← get
  set { p with probes := p.probes.push {
    occasion, state := p.core.state, callers, expected, withinRule, isExpected
    precedence := p.core.precedence
    inExpr := p.stack.any fun f => f.info.kind.rule = NodeKind.expr.rule } }

/-- The name of the rule of the innermost phrase. -/
def topRuleName : ParseM String := do
  let names := (← get).core.spec.ruleNames
  ofFault (Sequence.arrayAt names (← top).info.kind.rule)

def nextText : ParseM String := do ofFault (← current).textOrFault

def record (e : Event) : ParseM Unit := modify fun p => { p with events := p.events.push e }

def topText : ParseM String := do
  return (← ofFault (← top).close.text).getD ""

def mismatch : ParseM RecognitionError := do
  let offending ← current
  let p ← get
  return { cause := .mismatch, offending := some offending, state := p.core.state
           callers := p.callers }

def hearEnter : Listener → ParseM Unit
  | .events => do
    let kind := (← top).info.kind
    record (.enterEvery kind)
    if !kind.isGeneral then record (.enter kind (← topText))
  | .probe symbol => probe .enter symbol
  | .tracer => do print ("enter   " ++ (← topRuleName) ++ ", LT(1)=" ++ (← nextText))
  | .refusal _ => return

def hearExit : Listener → ParseM Unit
  | .events => do
    let kind := (← top).info.kind
    if !kind.isGeneral then record (.exit kind (← topText))
    record (.exitEvery kind)
  | .probe _ => return
  | .tracer => do print ("exit    " ++ (← topRuleName) ++ ", LT(1)=" ++ (← nextText))
  | .refusal kind => do
    let p ← get
    if (← top).info.kind = kind ∧ 0 < p.refusals then
      set { p with refusals := p.refusals - 1 }
      throw (.recognition (← mismatch))

def hearToken (t : Token) (isError : Bool) : Listener → ParseM Unit
  | .events => record (if isError then .error t.text else .terminal t.text)
  | .probe symbol => probe (if isError then .error else .terminal) symbol
  | .tracer => do
    if !isError then print ("consume " ++ t.display ++ " rule " ++ (← topRuleName))
  | .refusal _ => return

/-- Tells the listeners, in order, that the innermost phrase was opened. -/
def announceEnter : ParseM Unit := do
  ((← get).listeners.getD []).forM hearEnter

/-- Tells the listeners, the last one first, that the innermost phrase is left. -/
def announceExit : ParseM Unit := do
  ((← get).listeners.getD []).reverse.forM hearExit

/-- Takes the present token; at the end of the input it stays there. -/
def consume : ParseM Token := do
  let t ← current
  if !t.isEof then onStream TokenStream.consume
  let p ← get
  let listeners := p.listeners.getD []
  if p.building ∨ !listeners.isEmpty then
    modifyTop (·.add (.leaf t p.recovering))
    listeners.forM (hearToken t p.recovering)
  return t

/-- Opens a phrase on the stack, not yet attached. -/
def push (kind : NodeKind) (invoking state : Int) : ParseM Unit := do
  modify fun p => { p with stack := { info := { kind, invoking } } :: p.stack }
  setState state
  let start ← current
  modifyTop fun f => { f with info := { f.info with start := some start } }

def enterRule (kind : NodeKind) (invoking state : Int) : ParseM Unit := do
  push kind invoking state
  let p ← get
  if p.building then modifyTop ({ · with attached := true })
  announceEnter

def exitRule : ParseM ParseTree := do
  markStop
  announceExit
  setState (← top).info.invoking
  pop

def enterRecursion (kind : NodeKind) (invoking state precedence : Int) : ParseM Unit := do
  modify fun p => { p with core := { p.core with precedences := precedence :: p.core.precedences } }
  push kind invoking state
  announceEnter

/-- Makes the innermost phrase the first part of a new one, which stands at the given height. -/
def wrap (kind : NodeKind) (invoking outerInvoking : Int) (height : Nat) : ParseM Unit := do
  modifyTop fun f => { f with info := { f.info with invoking } }
  markStop
  let f ← top
  let building := (← get).building
  let outer : Frame := { info := { kind, invoking := outerInvoking, start := f.info.start } }
  let outer := if building then outer.add f.close else outer
  modify fun p => { p with stack := outer :: p.stack.drop (p.stack.length + 1 - height) }
  announceEnter

/-- Leaves phrases until the stack has the given height. -/
def unwind (height : Nat) : Nat → ParseM Unit
  | 0 => return
  | n + 1 => do
    if (← get).stack.length ≤ height then return
    announceExit
    let _ ← pop
    unwind height n

/-- Ends a left-recursive rule that was entered at the given height. The innermost phrase becomes a
part of the phrase at that height. Gives the tree of the rule. -/
def exitRecursion (height : Nat) : ParseM (Option ParseTree) := do
  modify fun p => { p with core := { p.core with precedences := p.core.precedences.tail } }
  markStop
  let result := (← get).treeAt (height + 1)
  let innermost := (← top).close
  if (← get).listeners.isSome then unwind height (← get).stack.length
  let p ← get
  let below := p.stack.drop (p.stack.length - height)
  set { p with stack := match below with
    | g :: rest => if p.building then g.add innermost :: rest else below
    | [] => [] }
  return result

end Parser

end Throbac
