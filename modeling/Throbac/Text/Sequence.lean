import Throbac.Fault

/-!
# Sequences

A position in a sequence of `n` items is an integer: `0, 1, …` count from the front and `-1, -2, …`
from the back. A cut between two such positions is clamped to the sequence. Short sequences are sorted
by insertion; items of the same rank keep their order.
-/
namespace Throbac.Sequence

/-- The item a signed position designates in a sequence of length `n`. -/
def resolve? (n : Nat) (i : Int) : Option Nat :=
  let k := if i < 0 then i + n else i
  if 0 ≤ k ∧ k < n then some k.toNat else none

/-- The gap before a signed position, clamped to `0 .. n`. -/
def clamp (n : Nat) (i : Int) : Nat :=
  if i < 0 then (i + n).toNat else min i.toNat n

theorem resolve?_natCast {n k : Nat} (h : k < n) : resolve? n k = some k := by
  have h0 : ¬ ((k : Int) < 0) := by omega
  simp [resolve?, h0, h]

def arrayAt? {α : Type} (xs : Array α) (i : Int) : Option α :=
  (resolve? xs.size i).bind (xs[·]?)

def listAt? {α : Type} (xs : List α) (i : Int) : Option α :=
  (resolve? xs.length i).bind (xs[·]?)

def arrayAt {α : Type} (xs : Array α) (i : Int) : Except Fault α :=
  match arrayAt? xs i with
  | some x => .ok x
  | none => .error .outOfRange

def listAt {α : Type} (xs : List α) (i : Int) : Except Fault α :=
  match listAt? xs i with
  | some x => .ok x
  | none => .error .outOfRange

def arrayCut {α : Type} (xs : Array α) (first last : Int) : Array α :=
  xs.extract (clamp xs.size first) (clamp xs.size last)

def listCut {α : Type} (xs : List α) (first last : Int) : List α :=
  (xs.take (clamp xs.length last)).drop (clamp xs.length first)

def insertBy {α : Type} (le : α → α → Bool) (x : α) : List α → List α
  | [] => [x]
  | y :: ys => if le x y then x :: y :: ys else y :: insertBy le x ys

def sortBy {α : Type} (le : α → α → Bool) (xs : List α) : List α := xs.foldr (insertBy le) []

section Sorting

variable {α : Type} {le : α → α → Bool} {a x : α} {xs : List α}

theorem mem_insertBy : a ∈ insertBy le x xs ↔ a = x ∨ a ∈ xs := by
  induction xs with
  | nil => simp [insertBy]
  | cons y ys ih =>
    rw [insertBy]
    split
    · exact List.mem_cons
    · rw [List.mem_cons, ih, List.mem_cons, or_left_comm]

theorem mem_sortBy : a ∈ sortBy le xs ↔ a ∈ xs := by
  induction xs with
  | nil => rfl
  | cons x xs ih => rw [sortBy, List.foldr_cons, mem_insertBy, ← sortBy, ih, List.mem_cons]

theorem pairwise_sortBy (htrans : ∀ a b c, le a b = true → le b c = true → le a c = true)
    (htotal : ∀ a b, le a b = true ∨ le b a = true) (xs : List α) :
    (sortBy le xs).Pairwise (le · · = true) := by
  have hinsert : ∀ (x : α) (ys : List α), ys.Pairwise (le · · = true) →
      (insertBy le x ys).Pairwise (le · · = true) := by
    intro x ys
    induction ys with
    | nil => exact fun _ => List.pairwise_singleton _ _
    | cons y ys ih =>
      intro h
      obtain ⟨hy, hys⟩ := List.pairwise_cons.1 h
      rw [insertBy]
      split
      · next hxy =>
        refine List.pairwise_cons.2 ⟨fun z hz => ?_, h⟩
        rcases List.mem_cons.1 hz with rfl | hz
        · exact hxy
        · exact htrans x y z hxy (hy z hz)
      · next hxy =>
        refine List.pairwise_cons.2 ⟨fun z hz => ?_, ih hys⟩
        rcases mem_insertBy.1 hz with rfl | hz
        · exact (htotal y z).resolve_right hxy
        · exact hy z hz
  induction xs with
  | nil => exact .nil
  | cons x xs ih => exact hinsert x _ ih

end Sorting

end Throbac.Sequence
