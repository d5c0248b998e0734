import Throbac.Vocabulary

/-!
# Sets of symbols

A set of integers kept as half-open intervals in a list. The list is made on the first addition; a
set that never had one is written `none` and has no length. Additions of non-empty intervals keep
the list sorted and its intervals apart.
-/
namespace Throbac

structure Interval where
  lo : Int
  hi : Int
  deriving DecidableEq, Repr, Inhabited

namespace Interval

def Contains (i : Interval) (x : Int) : Prop := i.lo ≤ x ∧ x < i.hi

instance (i : Interval) (x : Int) : Decidable (i.Contains x) :=
  inferInstanceAs (Decidable (_ ∧ _))

def size (i : Interval) : Nat := (i.hi - i.lo).toNat

def toList (i : Interval) : List Int :=
  (List.range i.size).map fun k : Nat => i.lo + k

theorem length_toList (i : Interval) : i.toList.length = i.size := by simp [toList]

theorem mem_toList {i : Interval} {x : Int} : x ∈ i.toList ↔ i.Contains x := by
  simp only [toList, size, Contains, List.mem_map, List.mem_range]
  constructor
  · rintro ⟨k, hk, rfl⟩
    omega
  · rintro ⟨h1, h2⟩
    exact ⟨(x - i.lo).toNat, by omega, by omega⟩

end Interval

structure SymbolSet where
  intervals : Option (List Interval) := none
  deriving DecidableEq, Repr, Inhabited

namespace SymbolSet

def empty : SymbolSet := {}

/-- The stored intervals, none for a set without a list. -/
def parts (s : SymbolSet) : List Interval := s.intervals.getD []

def Contains (s : SymbolSet) (x : Int) : Prop := ∃ i ∈ s.parts, i.Contains x

instance (s : SymbolSet) (x : Int) : Decidable (s.Contains x) :=
  inferInstanceAs (Decidable (∃ i ∈ s.parts, i.Contains x))

def contains (s : SymbolSet) (x : Int) : Bool := decide (s.Contains x)

theorem contains_iff {s : SymbolSet} {x : Int} : s.contains x = true ↔ s.Contains x := by
  simp [contains]

def toList (s : SymbolSet) : List Int := s.parts.flatMap Interval.toList

theorem mem_toList {s : SymbolSet} {x : Int} : x ∈ s.toList ↔ s.Contains x := by
  simp [toList, Contains, Interval.mem_toList]

def total : List Interval → Nat
  | [] => 0
  | i :: is => i.size + total is

/-- The number of members, counted interval by interval. -/
def length (s : SymbolSet) : Except Fault Nat :=
  match s.intervals with
  | none => .error .wrongType
  | some is => .ok (total is)

/-- The member at a position, or the invalid symbol when there is none. -/
def getD (s : SymbolSet) (k : Int) : Int :=
  if k < 0 then Symbol.invalid else (s.toList[k.toNat]?).getD Symbol.invalid

/-- Lets the first interval swallow those behind it that it reaches. -/
def absorb (l : Interval) : List Interval → List Interval
  | [] => [l]
  | r :: rest =>
    if r.hi ≤ l.hi then absorb l rest
    else if r.lo ≤ l.hi then ⟨l.lo, r.hi⟩ :: rest
    else l :: r :: rest

/-- Puts an interval in its place, joining it with those it meets. -/
def insertInto (v : Interval) : List Interval → List Interval
  | [] => [v]
  | i :: rest =>
    if v.hi < i.lo then v :: i :: rest
    else if v.hi = i.lo then ⟨v.lo, i.hi⟩ :: rest
    else if v.lo ≤ i.hi then absorb ⟨min i.lo v.lo, max i.hi v.hi⟩ rest
    else i :: insertInto v rest

def insert (s : SymbolSet) (v : Interval) : SymbolSet :=
  ⟨some (match s.intervals with
    | none => [v]
    | some is => insertInto v is)⟩

def insertOne (s : SymbolSet) (x : Int) : SymbolSet := s.insert ⟨x, x + 1⟩

def union (s t : SymbolSet) : SymbolSet := t.parts.foldl insert s

/-- Inserts the interval at each of the next places once more, as the set is by then. -/
def consolidateFrom (s : SymbolSet) (place : Nat) : (places : Nat) → SymbolSet
  | 0 => s
  | places + 1 =>
    match s.parts[place]? with
    | some i => (s.insert i).consolidateFrom (place + 1) places
    | none => s

/-- The union of a set with itself. Intervals that overlap or stand in the wrong order are joined
or swallowed under way. -/
def consolidate (s : SymbolSet) : SymbolSet := s.consolidateFrom 0 (2 * s.parts.length + 1)

def range (lo hi : Int) : SymbolSet := empty.insert ⟨lo, hi + 1⟩

def single (x : Int) : SymbolSet := empty.insertOne x

/-- Takes one symbol out of a list of intervals. -/
def eraseFrom (v : Int) : List Interval → List Interval
  | [] => []
  | i :: rest =>
    if v < i.lo then i :: rest
    else if v = i.lo ∧ v = i.hi - 1 then rest
    else if v = i.lo then ⟨i.lo + 1, i.hi⟩ :: rest
    else if v = i.hi - 1 then ⟨i.lo, i.hi - 1⟩ :: rest
    else if v < i.hi - 1 then ⟨i.lo, v⟩ :: ⟨v + 1, i.hi⟩ :: rest
    else i :: eraseFrom v rest

def eraseOne (s : SymbolSet) (v : Int) : SymbolSet := ⟨s.intervals.map (eraseFrom v)⟩

/-- One pass over the intervals that takes `v` out. The pass looks at position `look` and writes at
position `put`; after a removal the writing position stays while the looking position moves on. -/
def eraseRangeLoop (v : Interval) (is : List Interval) (look put : Nat) : List Interval :=
  if h : look < is.length then
    let i := is[look]
    if v.hi ≤ i.lo then is
    else if i.lo < v.lo ∧ v.hi < i.hi then
      (is.set put ⟨i.lo, v.lo⟩).insertIdx put ⟨v.hi, i.hi⟩
    else if v.lo ≤ i.lo ∧ i.hi ≤ v.hi then
      eraseRangeLoop v (is.eraseIdx put) (look + 1) put
    else if v.lo < i.hi then eraseRangeLoop v (is.set put ⟨i.lo, v.lo⟩) (look + 1) (put + 1)
    else if v.hi < i.hi then eraseRangeLoop v (is.set put ⟨v.hi, i.hi⟩) (look + 1) (put + 1)
    else eraseRangeLoop v is (look + 1) (put + 1)
  else is
termination_by is.length - look
decreasing_by
  · have := List.length_eraseIdx_le is put
    omega
  · simp only [List.length_set]
    omega
  · simp only [List.length_set]
    omega
  · omega

def eraseRange (s : SymbolSet) (v : Interval) : SymbolSet :=
  if v.lo = v.hi - 1 then s.eraseOne v.lo
  else ⟨s.intervals.map fun is => eraseRangeLoop v is 0 0⟩

/-- The symbols of `lo .. hi` that are not in the set. -/
def complement (s : SymbolSet) (lo hi : Int) : Except Fault SymbolSet :=
  match s.intervals with
  | none => .error .wrongType
  | some is => .ok (is.foldl eraseRange (range lo hi))

/-- The members by name, in braces unless there is only one. -/
def display (s : SymbolSet) (v : Vocabulary) : Except Fault String :=
  match s.intervals with
  | none => .ok "\x7b\x7d"
  | some is => do
    let names ← s.toList.mapM v.display
    let body := ", ".intercalate names
    return if total is > 1 then "\x7b" ++ body ++ "\x7d" else body

end SymbolSet

end Throbac
