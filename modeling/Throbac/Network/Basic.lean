import Throbac.SymbolSet
import Throbac.Lexing.Action

/-!
# Transition networks

A grammar as a graph. Every rule has a start and a stop state; an edge matches a symbol, calls a
rule, tests a predicate, runs an action or does nothing. States are named by their position in the
network. A state where more than one edge can be taken is a decision and has a number of its own.
-/
namespace Throbac

inductive StateKind
  | basic
  | ruleStart
  | blockStart
  | plusBlockStart
  | starBlockStart
  | tokenStart
  | ruleStop
  | blockEnd
  | starLoopBack
  | starLoopEntry
  | plusLoopBack
  | loopEnd
  deriving DecidableEq, Repr, Inhabited

namespace StateKind

/-- The kinds by their serialized number, from 1 on. -/
def all : List StateKind :=
  [basic, ruleStart, blockStart, plusBlockStart, starBlockStart, tokenStart, ruleStop, blockEnd,
    starLoopBack, starLoopEntry, plusLoopBack, loopEnd]

/-- The name of a kind in a listing of the network. -/
def name : StateKind → String
  | basic => "BASIC"
  | ruleStart => "RULE_START"
  | blockStart => "BLOCK_START"
  | plusBlockStart => "PLUS_BLOCK_START"
  | starBlockStart => "STAR_BLOCK_START"
  | tokenStart => "TOKEN_START"
  | ruleStop => "RULE_STOP"
  | blockEnd => "BLOCK_END"
  | starLoopBack => "STAR_LOOP_BACK"
  | starLoopEntry => "STAR_LOOP_ENTRY"
  | plusLoopBack => "PLUS_LOOP_BACK"
  | loopEnd => "LOOP_END"

def isBlockStart : StateKind → Bool
  | blockStart | plusBlockStart | starBlockStart => true
  | _ => false

def isDecision : StateKind → Bool
  | blockStart | plusBlockStart | starBlockStart | tokenStart | starLoopEntry | plusLoopBack => true
  | _ => false

/-- The kinds that take marks meant for other kinds as well. -/
def takesAnyMark : StateKind → Bool
  | ruleStart | blockEnd | plusBlockStart | starLoopEntry | loopEnd => false
  | _ => true

end StateKind

/-- What an edge asks of the input or of the parser. -/
inductive Label
  /-- Nothing. An edge that leaves a precedence rule called at level 0 names that rule; others have
  `-1`. -/
  | epsilon (outermost : Int)
  | range (lo hi : Int)
  /-- Calls a rule, with the least precedence it may parse at and the state to go on with. -/
  | call (rule precedence : Int) (follow : Nat)
  | predicate (rule index : Int) (needsContext : Bool)
  | atom (symbol : Int)
  | action (rule index : Int) (needsContext : Bool)
  | set (symbols : SymbolSet)
  | notSet (symbols : SymbolSet)
  | wildcard
  | precedence (level : Int)
  deriving DecidableEq, Repr, Inhabited

namespace Label

/-- Whether the edge is taken without reading a symbol. -/
def isEpsilon : Label → Bool
  | epsilon _ | call .. | predicate .. | action .. | precedence _ => true
  | _ => false

/-- The symbols written on the edge, if it has any. -/
def symbols : Label → Option SymbolSet
  | atom s => some (.single s)
  | range lo hi => some (.range lo hi)
  | set s | notSet s => some s
  | _ => none

/-- Whether the edge reads the symbol; `lo` and `hi` bound the symbols of the grammar. -/
def reads (l : Label) (x lo hi : Int) : Bool :=
  match l with
  | atom s => s == x
  | range a b => decide (a ≤ x ∧ x ≤ b)
  | set s => s.contains x
  | notSet s => decide (lo ≤ x ∧ x ≤ hi) && !s.contains x
  | wildcard => decide (lo ≤ x ∧ x ≤ hi)
  | _ => false

def charOf (n : Int) : Except Fault String :=
  if 0 ≤ n ∧ n ≤ Symbol.maxChar then .ok (String.singleton (Char.ofNat n.toNat))
  else .error .badCodePoint

/-- The printed form. Actions and precedence tests have none. -/
def display : Label → Except Fault String
  | epsilon _ => .ok "epsilon"
  | range lo hi => do
    let a ← charOf lo
    let b ← charOf hi
    return "'" ++ a ++ "'..'" ++ b ++ "'"
  | call .. => .ok "<RuleTransition>"
  | predicate r p _ => .ok s!"pred_{r}:{p}"
  | atom s => .ok (toString s)
  | action .. => .error .wrongType
  | set _ => .ok "<IntervalSet>"
  | notSet _ => .ok "~<IntervalSet>"
  | wildcard => .ok "."
  | precedence _ => .error .wrongType

end Label

structure Edge where
  target : Nat
  label : Label
  deriving DecidableEq, Repr, Inhabited

namespace Edge

def isEpsilon (e : Edge) : Bool := e.label.isEpsilon

end Edge

structure NetState where
  kind : StateKind
  rule : Int := 0
  edges : Array Edge := #[]
  /-- Whether every edge is taken without reading. -/
  epsilonOnly : Bool := false
  endState : Option Nat := none
  startState : Option Nat := none
  /-- The stop state of the rule that starts here. -/
  stopState : Option Nat := none
  /-- The state from which the loop is entered again. -/
  loopBack : Option Nat := none
  /-- The number of the decision, `-1` before one is given; none where no choice is made. -/
  decision : Option Int := none
  /-- Whether the choice prefers to leave; none where no choice is made. -/
  nonGreedy : Option Bool := none
  /-- Whether the rule that starts here is left recursive; none where no rule starts. -/
  precedenceRule : Option Bool := none
  /-- Whether the choice is that of a left-recursive rule to go on. -/
  precedenceDecision : Bool := false
  deriving DecidableEq, Repr, Inhabited

namespace NetState

def ofKind (kind : StateKind) (rule : Int) : NetState where
  kind
  rule
  decision := if kind.isDecision then some (-1) else none
  nonGreedy := if kind.isDecision then some false else none
  precedenceRule := if kind = .ruleStart then some false else none

def addEdge (s : NetState) (e : Edge) : NetState :=
  { s with
    edges := s.edges.push e
    epsilonOnly := if s.edges.isEmpty then e.isEpsilon
      else if s.epsilonOnly ≠ e.isEpsilon then false else s.epsilonOnly }

def isRuleStop (s : NetState) : Bool := s.kind == .ruleStop

def prefersExit (s : NetState) : Bool := s.nonGreedy == some true

end NetState

inductive GrammarSort
  | lexer
  | parser
  deriving DecidableEq, Repr, Inhabited

structure Network where
  sort : GrammarSort := .parser
  maxSymbol : Int := 0
  states : Array NetState := #[]
  decisions : Array Nat := #[]
  starts : Array Nat := #[]
  stops : Array (Option Nat) := #[]
  tokenTypes : Option (Array Int) := none
  modes : Array Nat := #[]
  actions : Option (Array LexerAction) := none
  deriving Inhabited

namespace Network

def state (net : Network) (n : Nat) : NetState := net.states.getD n default

def stateAt (net : Network) (i : Int) : Except Fault Nat :=
  match Sequence.resolve? net.states.size i with
  | some n => .ok n
  | none => .error .outOfRange

def edges (net : Network) (n : Nat) : Array Edge := (net.state n).edges

/-- The state of a decision; a network without decisions has none. -/
def decisionState (net : Network) (i : Int) : Except Fault (Option Nat) :=
  if net.decisions.isEmpty then .ok none else some <$> Sequence.arrayAt net.decisions i

/-- The decision number of a state, `-1` where none was given. -/
def decisionOf (net : Network) (n : Nat) : Int := (net.state n).decision.getD (-1)

def edgeCount (net : Network) : Nat := net.states.foldl (fun n s => n + s.edges.size) 0

/-- Where a state that calls a rule goes on after the call. -/
def followOf (net : Network) (n : Nat) : Except Fault Nat :=
  match (net.edges n)[0]?.map Edge.label with
  | none => .error .outOfRange
  | some (.call _ _ follow) => .ok follow
  | some _ => .error .noMember

end Network

end Throbac
