import Throbac.Proofs.CanonicalSets
import Throbac.Lookahead

/-!
# What an edge lets one expect

A search for the symbols that can come next takes them from the edges that read. It takes just the
symbols that the edge reads, if the edge has a proper label: a wildcard in a grammar with symbols, a
range with members, a set built by additions, or the complement of such a set whose intervals fit.
-/
namespace Throbac

namespace SymbolSet

variable {v : Interval} {is : List Interval} {s : SymbolSet} {k lo hi : Int}

/-! ## Complements have no empty interval -/

theorem nonempty_eraseFrom (h : ∀ i ∈ is, i.lo < i.hi) : ∀ j ∈ eraseFrom k is, j.lo < j.hi := by
  induction is with
  | nil => simp [eraseFrom]
  | cons i rest ih =>
    obtain ⟨hi, hrest⟩ := List.forall_mem_cons.1 h
    have ih := ih hrest
    unfold eraseFrom
    grind

theorem nonempty_eraseRangeLoop {look put : Nat} (hv : v.lo < v.hi)
    (h : ∀ i ∈ is, i.lo < v.lo ∧ i.lo < i.hi) : ∀ j ∈ eraseRangeLoop v is look put, j.lo < j.hi := by
  fun_induction eraseRangeLoop v is look put with
  | case1 is look put hlt i hstop => exact fun j hj => (h j hj).2
  | case2 is look put hlt i hgo hinside =>
    intro j hj
    rcases List.eq_or_mem_of_mem_insertIdx hj with rfl | hj
    · exact hinside.2
    · rcases List.mem_or_eq_of_mem_set hj with hj | rfl
      · exact (h j hj).2
      · exact hinside.1
  | case3 is look put hlt i hgo hinside hover ih =>
    have := h i (List.getElem_mem hlt)
    omega
  | case4 is look put hlt i hgo hinside hover hcut ih =>
    have hi := h i (List.getElem_mem hlt)
    refine ih fun j hj => ?_
    rcases List.mem_or_eq_of_mem_set hj with hj | rfl
    · exact h j hj
    · exact ⟨hi.1, hi.1⟩
  | case5 is look put hlt i hgo hinside hover hcut hupper ih => omega
  | case6 is look put hlt i hgo hinside hover hcut hupper ih => exact ih h
  | case7 is look put hlt => exact fun j hj => (h j hj).2

theorem Reached.lo_le (h : Reached k is) : ∀ i ∈ is, i.lo ≤ k := by
  cases h with
  | nil => simp
  | @beside as bs i hi hends =>
    intro j hj
    rcases List.mem_append.1 hj with hj | hj
    · exact (hends j (List.mem_append_left _ hj)).1
    · rcases List.mem_cons.1 hj with rfl | hj
      · exact hi
      · exact (hends j (List.mem_append_right _ hj)).1

theorem Reached.nonempty_run (h : Reached k is) (hne : ∀ i ∈ is, i.lo < i.hi) {vs : List Interval}
    (hvs : Apart vs) (hk : ∀ v ∈ vs, k < v.lo) :
    ∀ j ∈ vs.foldl (fun is v => eraseParts v is) is, j.lo < j.hi := by
  induction vs generalizing k is with
  | nil => exact hne
  | cons v vs ih =>
    obtain ⟨hv, hfirst, hrest⟩ := apart_cons.1 hvs
    have hv' := hk v List.mem_cons_self
    refine ih (h.step hv hv').1 ?_ hrest hfirst
    dsimp only
    unfold eraseParts
    split
    · exact nonempty_eraseFrom hne
    · exact nonempty_eraseRangeLoop hv fun i hi => ⟨Int.lt_of_le_of_lt (h.lo_le i hi) hv', hne i hi⟩

theorem nonempty_foldl_of_fits (hle : lo ≤ hi) {vs : List Interval} (hvs : Apart vs) (hfits : Fits lo hi vs) :
    ∀ j ∈ vs.foldl (fun is v => eraseParts v is) [⟨lo, hi + 1⟩], j.lo < j.hi := by
  have hone : ∀ i ∈ [(⟨lo, hi + 1⟩ : Interval)], i.lo < i.hi := by
    simp only [List.mem_singleton, forall_eq]
    omega
  induction vs with
  | nil => exact hone
  | cons v vs ih =>
    obtain ⟨hv, hfirst, hrest⟩ := apart_cons.1 hvs
    obtain ⟨hfit, hfits⟩ := List.forall_mem_cons.1 hfits
    by_cases hbefore : v.hi ≤ lo
    · rw [List.foldl_cons, eraseParts_before hbefore]
      exact ih hrest hfits
    by_cases hstart : v.lo ≤ lo
    · refine (@eraseParts_start _ _ hi hstart (by omega) (by omega)).1.nonempty_run ?_ hrest hfirst
      unfold eraseParts
      split
      · exact nonempty_eraseFrom hone
      · have hleft : eraseRangeLoop v [⟨lo, hi + 1⟩] 0 0 = [] := by
          refine (@eraseRangeLoop_even _ _ [] []).trans ?_
          rw [if_neg (by dsimp only; omega), if_neg (by dsimp only; omega), if_pos ⟨hstart, by dsimp only; omega⟩]
          exact eraseRangeLoop_behind (by simp)
        rw [hleft]
        simp
    · refine (@Reached.beside lo [] [] _ (Int.le_refl lo) (by simp)).nonempty_run hone hvs ?_
      refine List.forall_mem_cons.2 ⟨by omega, fun w hw => ?_⟩
      have := hfirst w hw
      omega

theorem complement_of_fits (hs : Built s) (hempty : s ≠ .empty) (hle : lo ≤ hi) (hfits : Fits lo hi s.parts) :
    ∃ t, s.complement lo hi = .ok t ∧ (∀ v ∈ t.parts, v.lo < v.hi) ∧
      ∀ x, t.Contains x ↔ (lo ≤ x ∧ x ≤ hi) ∧ ¬ s.Contains x := by
  obtain ⟨t, ht, hmem⟩ := (complement_iff hs lo hi).2 ⟨hempty, hfits⟩
  refine ⟨t, ht, ?_, hmem⟩
  cases hintervals : s.intervals with
  | none => exact absurd (hs.eq_empty hintervals) hempty
  | some is =>
    have hparts : s.parts = is := by rw [parts, hintervals, Option.getD_some]
    rw [complement, hintervals] at ht
    rw [← Except.ok.inj ht, parts_foldl]
    exact nonempty_foldl_of_fits hle (hparts ▸ hs.apart) (hparts ▸ hfits)

end SymbolSet

namespace Label

/-- The label is one that a grammar with symbols up to `max` can have: what it reads are symbols or the
end of the input, and its intervals have members. -/
def Proper (max : Int) : Label → Prop
  | atom x => Symbol.eof ≤ x
  | range lo hi => Symbol.eof ≤ lo ∧ lo ≤ hi
  | set s => SymbolSet.Apart s.parts ∧ ∀ x, s.Contains x → Symbol.eof ≤ x
  | notSet s => s.Built ∧ s ≠ .empty ∧ Symbol.minUser ≤ max
  | wildcard => Symbol.minUser ≤ max
  | _ => True

/-- The complement that the label stands for, if it does for one, can be taken without a loss. -/
def Fits (max : Int) : Label → Prop
  | notSet s => SymbolSet.Fits Symbol.minUser max s.parts
  | _ => True

/-- Whether the label is proper and stands for no complement. -/
def isProper : Label → Bool
  | atom x => Symbol.eof ≤ x
  | range lo hi => Symbol.eof ≤ lo && lo ≤ hi
  | set s => decide (SymbolSet.Apart s.parts) && s.parts.all (Symbol.eof ≤ ·.lo)
  | notSet _ | wildcard => false
  | _ => true

def foreseen (max : Int) : Label → Except Fault SymbolSet
  | wildcard => .ok (.range Symbol.minUser max)
  | notSet s => s.complement Symbol.minUser max
  | atom x => .ok (.single x)
  | range lo hi => .ok (.range lo hi)
  | set s => .ok s
  | _ => .ok .empty

variable {l : Label} {max : Int}

theorem range_parts {lo hi : Int} (h : lo ≤ hi) : (∀ v ∈ (SymbolSet.range lo hi).parts, v.lo < v.hi) ∧
    ∀ x, (SymbolSet.range lo hi).Contains x ↔ lo ≤ x ∧ x ≤ hi := by
  have hparts : (SymbolSet.range lo hi).parts = [⟨lo, hi + 1⟩] := rfl
  rw [hparts]
  refine ⟨by simpa using Int.lt_add_one_iff.2 h, fun x => ?_⟩
  rw [SymbolSet.Contains, hparts]
  simp only [List.mem_singleton, exists_eq_left, Interval.Contains, Int.lt_add_one_iff]

theorem foreseen_ok (hproper : l.Proper max) (hfits : l.Fits max) :
    ∃ s, l.foreseen max = .ok s ∧ (∀ v ∈ s.parts, v.lo < v.hi) ∧
      ∀ x, s.Contains x ↔ l.reads x Symbol.minUser max = true := by
  have hnone : ∀ x, SymbolSet.empty.Contains x ↔ False := by simp [SymbolSet.Contains, SymbolSet.parts, SymbolSet.empty]
  cases l with
  | atom y =>
    have hone := @range_parts y y (Int.le_refl y)
    refine ⟨_, rfl, hone.1, fun x => (hone.2 x).trans ?_⟩
    simp only [reads, beq_iff_eq]
    omega
  | range lo hi =>
    have hrange := @range_parts lo hi hproper.2
    exact ⟨_, rfl, hrange.1, fun x => (hrange.2 x).trans (by simp [reads])⟩
  | set s => exact ⟨s, rfl, hproper.1.nonempty, fun x => by simp [reads, SymbolSet.contains_iff]⟩
  | notSet s =>
    obtain ⟨t, ht, hne, hmem⟩ := SymbolSet.complement_of_fits hproper.1 hproper.2.1 hproper.2.2 hfits
    exact ⟨t, ht, hne, fun x => (hmem x).trans (by simp [reads, SymbolSet.contains])⟩
  | wildcard =>
    have hrange := @range_parts Symbol.minUser max hproper
    exact ⟨_, rfl, hrange.1, fun x => (hrange.2 x).trans (by simp [reads])⟩
  | epsilon | call | predicate | action | precedence =>
    exact ⟨_, rfl, SymbolSet.apart_nil.nonempty, fun x => by simp [reads, hnone]⟩

theorem proper_of_isProper (h : l.isProper = true) : l.Proper max ∧ l.Fits max := by
  refine ⟨?_, by cases l <;> trivial⟩
  cases l with
  | atom x => exact of_decide_eq_true (p := Symbol.eof ≤ x) h
  | range lo hi => simpa [isProper, Proper] using h
  | set s =>
    simp only [isProper, Bool.and_eq_true, decide_eq_true_eq, List.all_eq_true] at h
    refine ⟨h.1, ?_⟩
    rintro x ⟨i, hi, hx⟩
    exact Int.le_trans (h.2 i hi) hx.1
  | notSet | wildcard => cases h
  | epsilon | call | predicate | action | precedence => trivial

theorem eof_le_of_reads (hproper : l.Proper max) {x : Int} (hx : l.reads x Symbol.minUser max = true) :
    Symbol.eof ≤ x := by
  have hword : Symbol.minUser ≤ x → Symbol.eof ≤ x := Int.le_trans (by decide)
  cases l with
  | atom y => exact eq_of_beq hx ▸ hproper
  | range lo hi => exact Int.le_trans hproper.1 (of_decide_eq_true hx).1
  | set s => exact hproper.2 x (SymbolSet.contains_iff.1 hx)
  | notSet | wildcard =>
    simp only [reads, Bool.and_eq_true, decide_eq_true_eq] at hx
    exact hword (by omega)
  | epsilon | call | predicate | action | precedence => cases hx

end Label

end Throbac
