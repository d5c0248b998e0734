import Throbac.Parsing.Recovery

/-!
# Control of a parser

Listeners come and go, a parser starts over or moves to another stream, and a new parser can take
over what an older one has learned.
-/
namespace Throbac.Parser

def listenerCount (p : Parser) : Nat := (p.listeners.getD []).length

def addListener : Option Listener → ParseM Unit
  | none => throw (.fault .nullListener)
  | some l => modify fun p => { p with listeners := some (p.listeners.getD [] ++ [l]) }

/-- Removes a listener. It must be there if any listener is. -/
def removeListener (l : Option Listener) : ParseM Unit := do
  match (← get).listeners with
  | none => return
  | some ls =>
    match l with
    | none => throw (.fault .notListed)
    | some l =>
      if !ls.contains l then throw (.fault .notListed)
      let rest := ls.erase l
      modify ({ · with listeners := if rest.isEmpty then none else some rest })

def setTracing (on : Bool) : ParseM Unit := do
  let tracer := if (← get).tracing then some Listener.tracer else none
  if on then
    if tracer.isSome then removeListener tracer
    modify ({ · with tracing := true })
    addListener (some .tracer)
  else
    removeListener tracer
    modify ({ · with tracing := false })

/-- Goes back to the first token, outside any rule. -/
def reset : ParseM Unit := do
  if (← get).core.connected then onStream (TokenStream.seek 0)
  settle
  modify fun p => { p with stack := [], core := { p.core with errorCount := 0 } }
  setTracing false
  modify fun p => { p with core := { p.core with precedences := [0] } }

/-- Moves to another stream. If the parser cannot be reset it is left without one. -/
def connect (stream : TokenStream) : ParseM Unit := do
  modify fun p => { p with core := { p.core with connected := false } }
  reset
  modify fun p => { p with core := { p.core with connected := true, stream } }

/-- Looks tokens up by name. The numbers of the symbols are no sequence, so this fails even where
names were handed over. -/
def tokenTypes {α : Type} : ParseM α := do
  match (← get).naming with
  | none => throw (.fault .noMember)
  | some none => throw (.fault .noTokenNames)
  | some (some _) => throw (.fault .wrongType)

/-- The names of the rules in the order of their numbers. -/
def ruleIndices : ParseM (List String) := do
  match (← get).naming with
  | none => throw (.fault .noMember)
  | some none => throw (.fault .noRuleNames)
  | some (some names) => return names

def unlog : ParseM Unit := do
  if !(← get).core.logging then throw (.fault .notListed)
  modify fun p => { p with core := { p.core with logging := false } }

/-- The failure of a predicate at the present state. -/
def failedPredicate (predicate message : Option String) : ParseM RecognitionError := do
  let message ← match message, predicate with
    | some m, _ => pure m
    | none, some t => pure ("failed predicate: \x7b" ++ t ++ "\x7d?")
    | none, none => throw (.fault .wrongType)
  let p ← get
  let net := p.core.spec.network
  let n ← ofFault (net.stateAt p.core.state)
  let (rule, index) ← match (net.edges n)[0]?.map Edge.label with
    | none => throw (.fault .outOfRange)
    | some (.predicate r i _) => pure (r, i)
    | some _ => pure (0, 0)
  let offending ← current
  return { cause := .failedPredicate, message := some message, offending := some offending
           state := p.core.state, callers := p.callers, predicate := some { rule, index, predicate } }

/-- Takes over what another parser and its lexer have learned. -/
def adopt (p old : Parser) : Parser :=
  let source := match p.core.stream.source, old.core.stream.source with
    | .lexer l, .lexer k => .lexer { l with automata := k.automata, fresh := k.fresh }
    | s, _ => s
  { p with core := { p.core with
      automata := old.core.automata, contexts := old.core.contexts, looks := old.core.looks
      stream := { p.core.stream with source } } }

end Throbac.Parser
