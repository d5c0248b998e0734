import Throbac.Text.Escape
import Throbac.Prediction.Guard
import Throbac.Lexing.Action
import Throbac.Vocabulary

/-!
# Cached automata

A deterministic automaton is grown while a network is explored: a state stands for a set of
configurations of the network, and an edge, once added, saves the exploration. States are numbered
in the order of their discovery. The automaton of a left-recursive choice has one start state per
precedence instead of a single one.
-/
namespace Throbac

inductive Target
  | state (n : Nat)
  | failure
  deriving DecidableEq, Repr, Inhabited

/-- A state over sets of configurations of type `C`. -/
structure AutoState (C : Type) where
  configs : C
  /-- The edges by position; absent until the first is added. -/
  edges : Option (Array (Option Target)) := none
  accepting : Bool := false
  prediction : Int := 0
  /-- Whether the prediction needs the full stack of callers. -/
  needsStack : Bool := false
  /-- The guarded alternatives of an accepting state whose choice depends on predicates. -/
  guards : Option (List (Option Guard × Int)) := none
  actions : Option ActionList := none
  deriving Inhabited

structure Automaton (C : Type) where
  /-- The state of the network where the choice is made. -/
  origin : Nat := 0
  decision : Int := 0
  states : Array (AutoState C) := #[]
  start : Option Nat := none
  byPrecedence : Bool := false
  precedenceStarts : Array (Option Nat) := #[]
  deriving Inhabited

namespace AutoState

variable {C : Type}

def edgeAt (s : AutoState C) (i : Nat) : Option Target :=
  match s.edges with
  | none => none
  | some es => es.getD i none

def setEdge (s : AutoState C) (n i : Nat) (t : Target) : AutoState C :=
  { s with edges := some ((s.edges.getD (Array.replicate n none)).set! i (some t)) }

/-- The name of a state: its number, and for an accepting one what it predicts. -/
def label (s : AutoState C) (n : Nat) : String :=
  let base := (if s.accepting then ":" else "") ++ s!"s{n}" ++ (if s.needsStack then "^" else "")
  if s.accepting then
    match s.guards with
    | some gs =>
      base ++ "=>" ++ Text.bracket (gs.map fun (g, alt) => "(" ++ Guard.show? g ++ s!", {alt})")
    | none => base ++ s!"=>{s.prediction}"
  else base

end AutoState

namespace Automaton

variable {C : Type}

def ofDecision (origin : Nat) (decision : Int) (byPrecedence : Bool) : Automaton C :=
  { origin, decision, byPrecedence }

def state? (a : Automaton C) (n : Nat) : Option (AutoState C) := a.states[n]?

def modify (a : Automaton C) (n : Nat) (f : AutoState C → AutoState C) : Automaton C :=
  { a with states := a.states.modify n f }

/-- The start state for a precedence, if one is known. -/
def precedenceStart (a : Automaton C) (p : Int) : Except Fault (Option Nat) :=
  if !a.byPrecedence then .error .notPrecedence
  else if p < 0 then .ok none
  else .ok (a.precedenceStarts.getD p.toNat none)

def setPrecedenceStart (a : Automaton C) (p : Int) (n : Nat) : Except Fault (Automaton C) :=
  if !a.byPrecedence then .error .notPrecedence
  else if p < 0 then .ok a
  else
    let k := p.toNat
    let room := a.precedenceStarts ++
      Array.replicate (k + 1 - a.precedenceStarts.size) none
    .ok { a with precedenceStarts := room.set! k (some n) }

/-- Turns start states by precedence on or off; a change forgets all states. -/
def setByPrecedence (a : Automaton C) (b : Bool) : Automaton C :=
  if a.byPrecedence = b then a
  else { a with states := #[], start := none, byPrecedence := b, precedenceStarts := #[] }

def hasStart (a : Automaton C) : Bool := a.byPrecedence || a.start.isSome

/-- The edges, one to a line. An automaton that was begun but has no edge to show has no text. -/
def display (a : Automaton C) (edgeLabel : Nat → Except Fault String) : Except Fault String := do
  if !a.hasStart then return ""
  let lines ← a.states.zipIdx.foldlM (fun (acc : Array String) (s, n) => do
    let es := s.edges.getD #[]
    es.zipIdx.foldlM (fun (acc : Array String) (t, i) => do
      match t with
      | some (.state m) =>
        let mark ← edgeLabel i
        let goal := (a.states[m]?.map fun t => t.label m).getD ""
        return acc.push (s.label n ++ "-" ++ mark ++ "->" ++ goal ++ "\n")
      | _ => return acc) acc) #[]
  if lines.isEmpty then throw .wrongType
  return String.join lines.toList

/-- Edge names of a parser automaton: position 0 is the end of the input, then the symbols from 0
on. -/
def symbolLabel (v : Vocabulary) (i : Nat) : Except Fault String :=
  if i = 0 then .ok "EOF"
  else match v.literal[i - 1]?, v.symbolic[i - 1]? with
    | some s, _ => .ok s
    | none, some s => .ok s
    | none, none => .ok (toString (i - 1))

/-- Edge names of a lexer automaton: the characters. -/
def charLabel (i : Nat) : Except Fault String := .ok ("'" ++ String.singleton (Char.ofNat i) ++ "'")

end Automaton

end Throbac
