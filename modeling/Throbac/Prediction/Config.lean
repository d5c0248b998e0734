import Throbac.Stack.Merge
import Throbac.Stack.Share
import Throbac.Prediction.Guard
import Throbac.Text.Escape

/-!
# Configurations of a parser network

While alternatives are explored, a configuration says where one of them stands: a state, the stacks
under which it was reached and the guard met on the way. A set keeps one configuration for each
state, alternative and guard and merges the stacks of those that agree in all three.
-/
namespace Throbac

structure Config where
  state : Nat
  alt : Int
  context : StackContext
  guard : Guard := .always
  /-- How many rules the search has left beyond the one it started in. -/
  outer : Int := 0
  /-- Whether the configuration is spared by the precedence filter. -/
  spared : Bool := false
  deriving Inhabited, Repr

namespace Config

/-- Equality that leaves out how far the search went outside. -/
def same (a b : Config) : Bool :=
  a.state == b.state && a.alt == b.alt && decide (a.context = b.context) &&
    decide (a.guard = b.guard) && a.spared == b.spared

/-- Whether two configurations share a place in a set. -/
def sharesPlace (a b : Config) : Bool :=
  a.state == b.state && a.alt == b.alt && decide (a.guard = b.guard)

def display (c : Config) : String :=
  s!"({c.state},{c.alt}"
    ++ (if c.context = .null then "" else ",[" ++ c.context.display ++ "]")
    ++ (if c.guard = .always then "" else "," ++ c.guard.display)
    ++ (if c.outer > 0 then s!",up={c.outer}" else "")
    ++ ")"

end Config

structure ConfigSet where
  configs : Array Config := #[]
  /-- Whether stacks are followed to the bottom; otherwise the bottom is a wildcard. -/
  fullContext : Bool := true
  readonly : Bool := false
  /-- Whether configurations can still be looked up and added. -/
  searchable : Bool := true
  uniqueAlt : Int := 0
  /-- The alternatives in conflict, in increasing order. -/
  conflicting : Option (List Int) := none
  hasGuard : Bool := false
  dipsOutside : Bool := false
  deriving Inhabited, Repr

/-- Work on a set together with the cache of merged stacks. Both survive a fault. -/
abbrev ConfigM := EStateM Fault (ConfigSet × Option MergeCache)

namespace ConfigSet

def size (s : ConfigSet) : Nat := s.configs.size

def isEmpty (s : ConfigSet) : Bool := s.configs.isEmpty

/-- The place of a configuration, if the set has one for it. -/
def place? (s : ConfigSet) (c : Config) : Option Nat := s.configs.findIdx? c.sharesPlace

def contains (s : ConfigSet) (c : Config) : Except Fault Bool :=
  if s.searchable then .ok (s.place? c).isSome else .error .noLookup

/-- Lets one configuration take over the stacks of another at the same place. -/
def absorb (s : ConfigSet) (i : Nat) (c : Config) (merged : StackContext) : ConfigSet :=
  { s with configs := s.configs.modify i fun e =>
      { e with context := merged, outer := max e.outer c.outer, spared := e.spared || c.spared } }

/-- Runs a merge of stacks on the cache beside the set. -/
def merging (m : MergeM StackContext) : ConfigM StackContext := fun (s, cache) =>
  match m cache with
  | .ok c cache => .ok c (s, cache)
  | .error e cache => .error e (s, cache)

/-- Adds a configuration, or merges it into the one at its place. Gives the place. -/
def add (c : Config) : ConfigM Nat := do
  let s := (← get).1
  if s.readonly then throw .setIsReadonly
  modify fun (s, cache) =>
    ({ s with hasGuard := s.hasGuard || decide (c.guard ≠ .always)
              dipsOutside := s.dipsOutside || decide (c.outer > 0) }, cache)
  if !s.searchable then throw .noMember
  match s.place? c with
  | none =>
    modify fun (s, cache) => ({ s with configs := s.configs.push c }, cache)
    return s.configs.size
  | some i =>
    let e := s.configs.getD i default
    let merged ← merging (StackContext.merge (!s.fullContext) e.context c.context)
    modify fun (s, cache) => (s.absorb i c merged, cache)
    return i

/-- A set of the given configurations, merged without a cache. -/
def ofConfigs (fullContext : Bool) (cs : List Config) : Except Fault ConfigSet :=
  match (cs.forM fun c => do let _ ← add c) (({ fullContext } : ConfigSet), none) with
  | .ok _ (s, _) => .ok s
  | .error e _ => .error e

def clear : EStateM Fault ConfigSet Unit := do
  let s ← get
  if s.readonly then throw .frozenSet
  set { s with configs := #[] }
  if !s.searchable then throw .noMember

def setReadonly (s : ConfigSet) (b : Bool) : ConfigSet := { s with readonly := b, searchable := false }

/-- Replaces the stacks at a place by their shared copy. -/
def shareAt (i : Nat) : EStateM Fault (ConfigSet × ContextCache) Unit := fun (s, cache) =>
  let c := s.configs.getD i default
  match c.context.share { cache } with
  | .ok (context, _) r => .ok () ({ s with configs := s.configs.set! i { c with context } }, r.cache)
  | .error e r => .error e (s, r.cache)

def share : EStateM Fault (ConfigSet × ContextCache) Unit := do
  let s := (← get).1
  if s.readonly then throw .frozenSet
  (List.range s.configs.size).forM shareAt

/-- Equality of sets: the same configurations in the same order, and the same findings. -/
def same (a b : ConfigSet) : Bool :=
  a.configs.size == b.configs.size && (a.configs.toList.zip b.configs.toList).all (fun p => p.1.same p.2)
    && a.fullContext == b.fullContext && a.uniqueAlt == b.uniqueAlt
    && a.conflicting == b.conflicting && a.hasGuard == b.hasGuard
    && a.dipsOutside == b.dipsOutside

/-- The guards that ask for something, in order. -/
def guards (s : ConfigSet) : List Guard :=
  (s.configs.toList.map Config.guard).filter (· ≠ .always)

/-- Numbers in increasing order without repetition. -/
def sorted (xs : List Int) : List Int :=
  (Sequence.sortBy (fun a b => decide (a ≤ b)) xs).eraseReps

def states (s : ConfigSet) : List Int := sorted (s.configs.toList.map fun c => (c.state : Int))

def alts (s : ConfigSet) : List Int := sorted (s.configs.toList.map Config.alt)

def display (s : ConfigSet) : String :=
  Text.bracket (s.configs.toList.map Config.display)
    ++ (if s.hasGuard then ",hasSemanticContext=True" else "")
    ++ (if s.uniqueAlt ≠ 0 then s!",uniqueAlt={s.uniqueAlt}" else "")
    ++ (match s.conflicting with
      | some alts => ",conflictingAlts=" ++ Text.brace alts
      | none => "")
    ++ (if s.dipsOutside then ",dipsIntoOuterContext" else "")

end ConfigSet

end Throbac
