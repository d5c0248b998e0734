import Throbac.Recognition
import Throbac.Lookahead
import Throbac.Prediction.Conflict
import Throbac.Stream.Tokens

/-!
# Recognizers

What parsing a grammar needs apart from the rules in progress: the tokens, the caches grown while
predicting, the log, and the listeners that hear of errors. Reports and trace of a lexer below move
into the log of the recognizer as soon as the lexer has run, so the log is in the order of events.
-/
namespace Throbac

structure ParserSpec where
  network : Network
  vocabulary : Vocabulary := {}
  ruleNames : Array String := #[]
  /-- Decides a predicate by rule, number and whether a context is at hand. -/
  predicate : Int → Int → Bool → Except Fault Bool := fun _ _ _ => .ok true

instance : Inhabited ParserSpec := ⟨{ network := {} }⟩

/-- Which events of a prediction are written to the trace. -/
structure Watch where
  all : Bool := false
  decisions : Bool := false
  automata : Bool := false
  retries : Bool := false
  deriving DecidableEq, Repr, Inhabited

structure Recognizer where
  spec : ParserSpec
  stream : TokenStream
  connected : Bool := true
  mode : PredictionMode := .ll
  automata : Array (Automaton ConfigSet) := #[]
  contexts : ContextCache := []
  looks : LookTable := []
  /-- The merged stacks of the prediction in progress. -/
  merges : Option MergeCache := none
  /-- The precedences of the left-recursive rules in progress, innermost first. -/
  precedences : List Int := [0]
  state : Int := -1
  errorCount : Nat := 0
  reports : Array Report := #[]
  /-- Whether the parser's own errors go to the log. -/
  logging : Bool := true
  /-- Whether remarks on predictions go to the log as well. -/
  remarks : Bool := false
  /-- Whether remarks are reported as errors, and if so whether exact ambiguities only. -/
  diagnosis : Option Bool := none
  watch : Watch := {}
  trace : Array String := #[]
  deriving Inhabited

/-- Work of a recognizer; its state survives an interruption. -/
abbrev RecM := EStateM Interruption Recognizer

namespace Recognizer

/-- One empty automaton for each decision of the network. -/
def freshAutomata (net : Network) : Array (Automaton ConfigSet) :=
  net.decisions.mapIdx fun i n => .ofDecision n i (net.state n).precedenceDecision

def ofSpec (spec : ParserSpec) (stream : TokenStream) : Recognizer :=
  { spec, stream, automata := freshAutomata spec.network }

/-- Moves what the lexer has to tell into the log. -/
def collect (r : Recognizer) : Recognizer :=
  match r.stream.source with
  | .list _ => r
  | .lexer l =>
    if l.reports.isEmpty ∧ l.trace.isEmpty then r
    else
      { r with
        reports := r.reports ++ l.reports
        trace := r.trace ++ l.trace
        stream := { r.stream with source := .lexer { l with reports := #[], trace := #[] } } }

/-- Work of the token stream, which must be at hand. -/
def onStream {α : Type} (m : StreamM α) : RecM α := fun r =>
  if r.connected then
    match m r.stream with
    | .ok x stream => .ok x (collect { r with stream })
    | .error e stream => .error (.fault e) (collect { r with stream })
  else .error (.fault .noMember) r

def ofFault {α : Type} : Except Fault α → RecM α
  | .ok x => pure x
  | .error e => throw (.fault e)

/-- Notes a line of the trace if the event is watched. -/
def note (watched : Watch → Bool) (line : RecM String) : RecM Unit := do
  if watched (← get).watch then
    let s ← line
    modify fun r => { r with trace := r.trace.push s }

/-- Reports an error at a token, by default the present one. -/
def notify (message : String) (token : Option Token) (cause : Option ErrorCause) : RecM Unit := do
  let token ← match token with
    | some t => pure t
    | none => onStream TokenStream.current
  modify fun r => { r with
    errorCount := r.errorCount + 1
    reports := if r.logging then
        r.reports.push (.syntaxError token.line token.column message (some token) cause)
      else r.reports }

/-- Hands a remark on a prediction to the listeners. -/
def remark (report : Unit → Report) (exact : Bool) (message : RecM String) : RecM Unit := do
  let r ← get
  if r.remarks then set { r with reports := r.reports.push (report ()) }
  match r.diagnosis with
  | none => return
  | some exactOnly =>
    if exactOnly && !exact then return
    notify (← message) none none

/-- The precedence of the innermost left-recursive rule, `-1` outside any. -/
def precedence (r : Recognizer) : Int := r.precedences.headD (-1)

/-- The automata grown so far, decision by decision. Where one has no edge to print the text ends. -/
def dump (r : Recognizer) : String × Option Fault :=
  let grown := r.automata.toList.filter fun a => !a.states.isEmpty
  grown.foldl (fun (text, failure) a =>
    if failure.isSome then (text, failure)
    else
      let head := text ++ (if text.isEmpty then "" else "\n") ++ s!"Decision {a.decision}:\n"
      match a.display (Automaton.symbolLabel r.spec.vocabulary) with
      | .ok s => (head ++ s, none)
      | .error f => (head, some f)) ("", none)

/-- A bound on the steps to the end of the input and a little beyond. -/
def stepBound (r : Recognizer) : Nat := r.stream.size + r.stream.source.remaining + 8

def oracle (r : Recognizer) (hasContext : Bool) : Guard.Oracle where
  predicate := r.spec.predicate
  precedence := fun n =>
    match r.precedences with
    | [] => .error .outOfRange
    | p :: _ => .ok (n ≥ p)
  hasContext := hasContext

end Recognizer

end Throbac
