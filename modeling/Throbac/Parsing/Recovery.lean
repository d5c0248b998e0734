import Throbac.Parsing.Parser

/-!
# Error recovery

A parser that meets a token it cannot take reports it once and goes on: it drops the token if the
next one fits, makes up a missing one if the present token fits behind it, and otherwise skips to a
token that some rule in progress can go on with. A parser that bails gives up at the first error.
-/
namespace Throbac.Parser

/-- Ends the state of error; from now on errors are reported again. -/
def settle : ParseM Unit :=
  modify ({ · with recovering := false, lastErrorStates := none, lastErrorIndex := -1 })

def notify (message : String) (token : Option Token) (cause : Option ErrorCause) : ParseM Unit :=
  onCore (Recognizer.notify message token cause)

/-- Reports an error without a text, which the log refuses. -/
def notifyBlank (token : Option Token) : ParseM Unit := do
  let _ ← match token with
    | some t => pure t
    | none => current
  modify fun p => { p with core := { p.core with errorCount := p.core.errorCount + 1 } }
  if (← get).core.logging then throw (.fault .wrongType)

def describeNoViable (e : RecognitionError) : ParseM String := do
  let start ← match e.start with
    | some t => pure t
    | none => current
  let offending ← match e.offending with
    | some t => pure t
    | none => current
  let input ← if start.isEof then pure "<EOF>" else onStream (TokenStream.textBetween start offending)
  return "no viable alternative at input " ++ Text.quote input

def showToken : Option Token → String
  | some t => t.errorDisplay
  | none => "<no token>"

def describeMismatch (e : RecognitionError) : ParseM String := do
  let expected ← onLooks fun net => LookTable.expected net e.state e.callers.invocations
  return "mismatched input " ++ showToken e.offending ++ " expecting " ++ (← showSymbols expected.1)

def describeFailed (e : RecognitionError) : ParseM String := do
  let rule ← topRuleName
  match e.message with
  | some m => return "rule " ++ rule ++ " " ++ m
  | none => throw (.fault .wrongType)

/-- Reports an error unless the parser is still recovering from another. -/
def report (e : RecognitionError) : ParseM Unit := do
  if (← get).recovering then return
  modify ({ · with recovering := true })
  match e.cause with
  | .noViable => notify (← describeNoViable e) e.offending e.cause
  | .mismatch => notify (← describeMismatch e) e.offending e.cause
  | .failedPredicate => notify (← describeFailed e) e.offending e.cause
  | .unreadable | .plain =>
    print ("unknown recognition error type: " ++ e.cause.name)
    match e.message with
    | some m => notify m e.offending e.cause
    | none => notifyBlank e.offending

def reportUnwanted : ParseM Unit := do
  if (← get).recovering then return
  modify ({ · with recovering := true })
  let t ← current
  let expected ← showSymbols (← expected)
  notify ("extraneous input " ++ t.errorDisplay ++ " expecting " ++ expected) (some t) none

def reportMissing : ParseM Unit := do
  if (← get).recovering then return
  modify ({ · with recovering := true })
  let t ← current
  let expected ← showSymbols (← expected)
  notify ("missing " ++ expected ++ " at " ++ t.errorDisplay) (some t) none

/-- The symbols behind the calls of the given invoking states, up to one that is no call. -/
def followAll : List Int → SymbolSet → ParseM SymbolSet
  | [], s => return s
  | c :: rest, s => do
    if c < 0 then return s
    let net := (← get).core.spec.network
    let n ← ofFault (net.stateAt c)
    let follow ← ofFault (net.followOf n)
    let next ← onLooks fun net => LookTable.next net follow
    followAll rest (s.union next)

/-- The symbols that some rule in progress can go on with. -/
def recoverySet : ParseM SymbolSet := do
  let s ← followAll (← get).callers.invocations {}
  return s.eraseOne Symbol.epsilon

/-- Skips to a token of the set or the end of the input. -/
def skipTo (s : SymbolSet) : Nat → ParseM Unit
  | 0 => throw (.fault .exhausted)
  | fuel + 1 => do
    let t ← symbol 1
    if t = Symbol.eof ∨ s.contains t then return
    let _ ← consume
    skipTo s fuel

def consumeUntil (s : SymbolSet) : ParseM Unit := do skipTo s (← get).core.stepBound

/-- Gives up because of the error, of which every rule in progress is told. -/
def bail {α : Type} (e : RecognitionError) : ParseM α := do
  modify fun p => { p with
    stack := p.stack.map fun f => { f with info := { f.info with failure := some e.cause } } }
  throw (.cancelled e)

/-- Goes on behind an error. Where the parser failed before without any progress, it drops a token
first. -/
def recover (e : RecognitionError) : ParseM Unit := do
  let p ← get
  if p.bails then bail e
  if !p.core.connected then throw (.fault .noMember)
  if p.lastErrorIndex = p.core.stream.index ∧ p.core.state ∈ p.lastErrorStates.getD [] then
    let _ ← consume
  modify fun p => { p with
    lastErrorIndex := p.core.stream.index
    lastErrorStates := some (p.lastErrorStates.getD [] ++ [p.core.state]) }
  consumeUntil (← recoverySet)

/-- Drops the present token if the next one is expected, and gives that one. -/
def dropToken : ParseM (Option Token) := do
  let next ← symbol 2
  if !(← expected).contains next then return none
  reportUnwanted
  let _ ← consume
  let t ← current
  settle
  return some t

/-- The symbols that can come behind the token missing at the present state. -/
def behindMissing : ParseM SymbolSet := do
  let p ← get
  let net := p.core.spec.network
  let n ← ofFault (net.stateAt p.core.state)
  match (net.edges n)[0]? with
  | none => throw (.fault .outOfRange)
  | some edge =>
    if p.stack.isEmpty then onLooks fun net => LookTable.next net edge.target
    else ofFault (net.look edge.target none (some p.callers.invocations))

def missingText (type : Int) : ParseM String := do
  if type = Symbol.eof then return "<missing EOF>"
  let v := (← get).core.spec.vocabulary
  let name ←
    if type < v.literal.size then ofFault (Sequence.arrayAt v.literal type)
    else if type < v.symbolic.size then ofFault (Sequence.arrayAt v.symbolic type)
    else pure "None"
  return "<missing " ++ name ++ ">"

/-- A token of the first expected type, at the place of the present one. -/
def missingToken : ParseM Token := do
  let here ← current
  let type := (← expected).getD 0
  let text ← missingText type
  let before ← onStream (TokenStream.lookAhead (-1))
  let place := if here.isEof then before.getD here else here
  return { type, given := some text, source := place.source, line := place.line
           column := place.column }

/-- Mends a single token: drops the present one or makes up the one before it. -/
def mend : ParseM Token := do
  if (← get).bails then bail (← mismatch)
  match ← dropToken with
  | some t =>
    let _ ← consume
    return t
  | none =>
    let here ← symbol 1
    if (← behindMissing).contains here then
      reportMissing
      missingToken
    else throw (.recognition (← mismatch))

/-- Skips what cannot start another round of a loop nor follow it. The symbols remembered for the
state grow by those that may follow. -/
def resume : ParseM Unit := do
  reportUnwanted
  let (expecting, remembered) ← expectedFrom
  let s := expecting.union (← recoverySet)
  match remembered with
  | some n => modify fun p => { p with core := { p.core with looks := p.core.looks.replace n s } }
  | none => pure ()
  consumeUntil s

/-- Checks the present token against the state before a choice or a loop. -/
def sync : ParseM Unit := do
  let p ← get
  if p.bails ∨ p.recovering then return
  let n ← ofFault (p.core.spec.network.stateAt p.core.state)
  let here ← symbol 1
  let next ← onLooks fun net => LookTable.next net n
  if next.contains here ∨ next.contains Symbol.epsilon then return
  match (p.core.spec.network.state n).kind with
  | .blockStart | .starBlockStart | .plusBlockStart | .starLoopEntry =>
    if (← dropToken).isNone then throw (.recognition (← mismatch))
  | .plusLoopBack | .starLoopBack => resume
  | _ => return

def addMadeUp (t : Token) : ParseM Unit := do
  if (← get).building ∧ t.index = -1 then modifyTop (·.add (.leaf t true))

/-- Takes the present token if it fits, and mends the input otherwise. -/
def matchWhere (fits : Int → Bool) : ParseM Token := do
  let t ← current
  if fits t.type then
    settle
    let _ ← consume
    return t
  else
    let t ← mend
    addMadeUp t
    return t

def matchType (type : Int) : ParseM Token := matchWhere (· == type)

def matchAny : ParseM Token := matchWhere (· > 0)

end Throbac.Parser
