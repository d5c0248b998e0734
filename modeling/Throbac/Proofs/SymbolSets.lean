import Throbac.Proofs.Lookahead
import Mathlib.Data.List.Basic

/-!
# Taking ranges out of a set of symbols

A set that is built by additions keeps its intervals in order and apart. Taking out one symbol leaves
the other ones, in order. Taking out a longer range does so exactly if the range does not end in the
midst of an interval and covers at most one: a range inside an interval leaves its two ends in the
wrong order, one that reaches only into the lower part of an interval takes all of it, and behind an
interval that is taken out whole the next one is not looked at. A complement is right exactly if no
interval of two symbols or more reaches over its start alone.
-/
namespace Throbac

namespace Interval

def Covers (v i : Interval) : Prop := v.lo ≤ i.lo ∧ i.hi ≤ v.hi

instance (v i : Interval) : Decidable (v.Covers i) := inferInstanceAs (Decidable (_ ∧ _))

end Interval

namespace SymbolSet

/-- A set reached from the empty one by additions of intervals with members. -/
inductive Built : SymbolSet → Prop
  | empty : Built .empty
  | insert {s : SymbolSet} {v : Interval} (hs : Built s) (hv : v.lo < v.hi) : Built (s.insert v)

/-- Intervals with members, in order and disjoint. -/
structure InOrder (is : List Interval) : Prop where
  sorted : is.Pairwise fun i j => i.hi ≤ j.lo
  nonempty : ∀ i ∈ is, i.lo < i.hi

/-- Intervals with members, in order and with a gap between any two. -/
structure Apart (is : List Interval) : Prop where
  gaps : is.Pairwise fun i j => i.hi < j.lo
  nonempty : ∀ i ∈ is, i.lo < i.hi

instance (is : List Interval) : Decidable (Apart is) :=
  decidable_of_iff (is.Pairwise (fun i j => i.hi < j.lo) ∧ ∀ i ∈ is, i.lo < i.hi)
    ⟨fun h => ⟨h.1, h.2⟩, fun h => ⟨h.gaps, h.nonempty⟩⟩

variable {v i j l : Interval} {is as bs : List Interval} {s : SymbolSet} {x lo hi k : Int}

theorem apart_nil : Apart [] := ⟨.nil, by simp⟩

theorem apart_cons : Apart (i :: is) ↔ i.lo < i.hi ∧ (∀ j ∈ is, i.hi < j.lo) ∧ Apart is := by
  constructor
  · rintro ⟨hgaps, hne⟩
    obtain ⟨hfirst, hgaps⟩ := List.pairwise_cons.1 hgaps
    exact ⟨hne i List.mem_cons_self, hfirst, hgaps, fun j hj => hne j (List.mem_cons_of_mem i hj)⟩
  · rintro ⟨hi, hfirst, hgaps, hne⟩
    exact ⟨List.pairwise_cons.2 ⟨hfirst, hgaps⟩, List.forall_mem_cons.2 ⟨hi, hne⟩⟩

theorem Apart.inOrder (h : Apart is) : InOrder is :=
  ⟨h.gaps.imp fun hlt => Int.le_of_lt hlt, h.nonempty⟩

/-! ## Additions -/

theorem mem_absorb_lo (hl : k ≤ l.lo) (his : ∀ i ∈ is, k ≤ i.lo) : ∀ i ∈ absorb l is, k ≤ i.lo := by
  induction is generalizing l with
  | nil => simpa [absorb] using hl
  | cons r rest ih =>
    unfold absorb
    grind

theorem mem_insertInto_lo (hv : k ≤ v.lo) (his : ∀ i ∈ is, k ≤ i.lo) : ∀ i ∈ insertInto v is, k ≤ i.lo := by
  induction is with
  | nil => simpa [insertInto] using hv
  | cons r rest ih =>
    have hmin : ∀ {l}, k ≤ l.lo → ∀ i ∈ absorb l rest, k ≤ i.lo := fun hl =>
      mem_absorb_lo hl (List.forall_mem_cons.1 his).2
    unfold insertInto
    grind

theorem Apart.absorb (h : Apart is) (hl : l.lo < l.hi) : Apart (absorb l is) := by
  induction is with
  | nil => exact apart_cons.2 ⟨hl, by simp, apart_nil⟩
  | cons r rest ih =>
    obtain ⟨hr, hfirst, hrest⟩ := apart_cons.1 h
    rw [SymbolSet.absorb]
    split
    · exact ih hrest
    · next hbeyond =>
      split
      · exact apart_cons.2 ⟨by dsimp only; omega, hfirst, hrest⟩
      · next hgap =>
        refine apart_cons.2 ⟨hl, List.forall_mem_cons.2 ⟨by omega, fun j hj => ?_⟩, h⟩
        have := hfirst j hj
        omega

theorem Apart.insertInto (h : Apart is) (hv : v.lo < v.hi) : Apart (insertInto v is) := by
  induction is with
  | nil => exact apart_cons.2 ⟨hv, by simp, apart_nil⟩
  | cons i rest ih =>
    obtain ⟨hi, hfirst, hrest⟩ := apart_cons.1 h
    rw [SymbolSet.insertInto]
    split
    · next hbefore =>
      refine apart_cons.2 ⟨hv, List.forall_mem_cons.2 ⟨hbefore, fun j hj => ?_⟩, h⟩
      have := hfirst j hj
      omega
    · split
      · exact apart_cons.2 ⟨by dsimp only; omega, hfirst, hrest⟩
      · split
        · exact hrest.absorb (by dsimp only; omega)
        · next hbehind =>
          have hlow : ∀ j ∈ rest, i.hi + 1 ≤ j.lo := hfirst
          exact apart_cons.2 ⟨hi, mem_insertInto_lo (by omega) hlow, ih hrest⟩

theorem Built.apart (h : Built s) : Apart s.parts := by
  induction h with
  | empty => exact apart_nil
  | @insert s v hs hv ih =>
    unfold SymbolSet.insert parts at *
    cases hintervals : s.intervals with
    | none => exact apart_cons.2 ⟨hv, by simp, apart_nil⟩
    | some is =>
      rw [hintervals] at ih
      exact ih.insertInto hv

/-! ## One symbol less -/

def Held (is : List Interval) (x : Int) : Prop := ∃ i ∈ is, i.Contains x

theorem held_nil : ¬ Held [] x := by
  simp [Held]

theorem held_cons : Held (i :: is) x ↔ i.Contains x ∨ Held is x := by
  simp only [Held, List.mem_cons, exists_eq_or_imp]

theorem held_append : Held (as ++ bs) x ↔ Held as x ∨ Held bs x := by
  simp only [Held, List.mem_append, or_and_right, exists_or]

theorem held_singleton : Held [i] x ↔ i.Contains x := by
  simp only [Held, List.mem_singleton, exists_eq_left]

theorem held_eraseFrom (h : Apart is) : Held (eraseFrom k is) x ↔ Held is x ∧ x ≠ k := by
  induction is with
  | nil => simp [eraseFrom, held_nil]
  | cons i rest ih =>
    obtain ⟨hi, hfirst, hrest⟩ := apart_cons.1 h
    have hbehind : Held rest x → i.hi < x := by
      rintro ⟨j, hj, hx⟩
      exact Int.lt_of_lt_of_le (hfirst j hj) hx.1
    have ih := ih hrest
    unfold eraseFrom
    simp only [apply_ite (fun l : List Interval => Held l x), held_cons, ih]
    generalize Held rest x = P at hbehind ih
    unfold Interval.Contains
    grind

theorem mem_eraseFrom_lo {v : Int} (his : ∀ i ∈ is, k ≤ i.lo) : ∀ i ∈ eraseFrom v is, k ≤ i.lo := by
  induction is with
  | nil => simp [eraseFrom]
  | cons r rest ih =>
    unfold eraseFrom
    grind

theorem Apart.eraseFrom (h : Apart is) : Apart (eraseFrom k is) := by
  induction is with
  | nil => exact apart_nil
  | cons i rest ih =>
    obtain ⟨hi, hfirst, hrest⟩ := apart_cons.1 h
    have hlow : ∀ j ∈ SymbolSet.eraseFrom k rest, i.hi + 1 ≤ j.lo := mem_eraseFrom_lo hfirst
    have ih := ih hrest
    unfold SymbolSet.eraseFrom
    split
    · exact h
    split
    · exact hrest
    split
    · exact apart_cons.2 ⟨by dsimp only; omega, hfirst, hrest⟩
    split
    · exact apart_cons.2 ⟨by dsimp only; omega, fun j hj => by have := hfirst j hj; dsimp only; omega, hrest⟩
    split
    · have hupper : Apart (⟨k + 1, i.hi⟩ :: rest) := apart_cons.2 ⟨by dsimp only; omega, hfirst, hrest⟩
      refine apart_cons.2 ⟨by dsimp only; omega, List.forall_mem_cons.2 ⟨by dsimp only; omega, ?_⟩, hupper⟩
      intro j hj
      have := hfirst j hj
      dsimp only
      omega
    · exact apart_cons.2 ⟨hi, hlow, ih⟩

/-! ## A range less -/

/-- The range ends in the midst of no interval and covers at most one. -/
structure Clear (v : Interval) (is : List Interval) : Prop where
  ends : ∀ i ∈ is, ¬ (i.lo < v.hi ∧ v.hi < i.hi)
  alone : ∀ i ∈ is, ∀ j ∈ is, v.Covers i → v.Covers j → i = j

theorem Clear.tail (h : Clear v (i :: is)) : Clear v is :=
  ⟨fun j hj => h.ends j (List.mem_cons_of_mem i hj),
    fun j hj l hl => h.alone j (List.mem_cons_of_mem i hj) l (List.mem_cons_of_mem i hl)⟩

theorem Clear.cons (h : Clear v is) (hend : ¬ (i.lo < v.hi ∧ v.hi < i.hi)) (hover : ¬ v.Covers i) :
    Clear v (i :: is) := by
  refine ⟨List.forall_mem_cons.2 ⟨hend, h.ends⟩, List.forall_mem_cons.2 ⟨?_, ?_⟩⟩
  · intro j _ hi
    exact absurd hi hover
  · intro j hj
    exact List.forall_mem_cons.2 ⟨fun _ hi => absurd hi hover, h.alone j hj⟩

theorem clear_of_behind (h : ∀ j ∈ is, j.lo < j.hi ∧ v.hi ≤ j.lo) : Clear v is ∧ (v.Covers i → Clear v (i :: is)) := by
  have hnone : ∀ j ∈ is, ¬ v.Covers j := by
    intro j hj hover
    have := h j hj
    have := hover.2
    omega
  have hends : ∀ j ∈ is, ¬ (j.lo < v.hi ∧ v.hi < j.hi) := by
    intro j hj
    have := h j hj
    omega
  refine ⟨⟨hends, fun j hj _ _ hover => absurd hover (hnone j hj)⟩, fun hover => ⟨?_, ?_⟩⟩
  · exact List.forall_mem_cons.2 ⟨by have := hover.2; omega, hends⟩
  · intro j hj l hl hj' hl'
    rcases List.mem_cons.1 hj with rfl | hj
    · rcases List.mem_cons.1 hl with rfl | hl
      · rfl
      · exact absurd hl' (hnone l hl)
    · exact absurd hj' (hnone j hj)

theorem Clear.behind (h : Clear v (i :: is)) (hapart : Apart (i :: is)) (hover : v.Covers i) :
    ∀ j ∈ is, v.hi ≤ j.lo := by
  obtain ⟨hi, hfirst, hrest⟩ := apart_cons.1 hapart
  intro j hj
  have hgap := hfirst j hj
  have hne := hrest.nonempty j hj
  have hend := h.ends j (List.mem_cons_of_mem i hj)
  have hsame := h.alone i List.mem_cons_self j (List.mem_cons_of_mem i hj) hover
  have hlo := hover.1
  by_contra hlt
  have := hsame ⟨by omega, by omega⟩
  subst this
  omega

/-- What a range leaves of an interval in which it does not end. -/
def keep (v i : Interval) : Option Interval :=
  if v.hi ≤ i.lo then some i else if i.lo < v.lo then some ⟨i.lo, min i.hi v.lo⟩ else none

theorem filterMap_keep_of_behind (h : ∀ i ∈ is, v.hi ≤ i.lo) : is.filterMap (keep v) = is := by
  have hall : is.filterMap (keep v) = is.filterMap some := List.filterMap_congr fun i hi => if_pos (h i hi)
  rw [hall, List.filterMap_some]

theorem held_filterMap_keep (h : Clear v is) :
    Held (is.filterMap (keep v)) x ↔ Held is x ∧ ¬ v.Contains x := by
  have hone : ∀ i ∈ is, (∃ j, keep v i = some j ∧ j.Contains x) ↔ i.Contains x ∧ ¬ v.Contains x := by
    intro i hi
    have hend := h.ends i hi
    unfold keep Interval.Contains
    split
    · simp only [Option.some.injEq, exists_eq_left']
      omega
    · split
      · simp only [Option.some.injEq, exists_eq_left']
        omega
      · simp only [reduceCtorEq, false_and, exists_false, false_iff]
        omega
  constructor
  · rintro ⟨j, hj, hx⟩
    obtain ⟨i, hi, hkeep⟩ := List.mem_filterMap.1 hj
    obtain ⟨hi', hv'⟩ := (hone i hi).1 ⟨j, hkeep, hx⟩
    exact ⟨⟨i, hi, hi'⟩, hv'⟩
  · rintro ⟨⟨i, hi, hx⟩, hv'⟩
    obtain ⟨j, hkeep, hj⟩ := (hone i hi).2 ⟨hx, hv'⟩
    exact ⟨j, List.mem_filterMap.2 ⟨i, hi, hkeep⟩, hj⟩

theorem Apart.filterMap_keep (h : Apart is) : Apart (is.filterMap (keep v)) := by
  have hpart : ∀ {i j}, keep v i = some j → i.lo ≤ j.lo ∧ j.hi ≤ i.hi ∧ (i.lo < i.hi → j.lo < j.hi) := by
    intro i j hkeep
    unfold keep at hkeep
    split at hkeep
    · cases hkeep
      exact ⟨Int.le_refl _, Int.le_refl _, id⟩
    · split at hkeep
      · cases hkeep
        dsimp only
        omega
      · cases hkeep
  constructor
  · refine h.gaps.filterMap (keep v) fun i j hlt i' hi' j' hj' => ?_
    have := hpart hi'
    have := hpart hj'
    omega
  · intro j hj
    obtain ⟨i, hi, hkeep⟩ := List.mem_filterMap.1 hj
    exact (hpart hkeep).2.2 (h.nonempty i hi)

theorem eraseRangeLoop_even : eraseRangeLoop v (as ++ i :: bs) as.length as.length =
    if v.hi ≤ i.lo then as ++ i :: bs
    else if i.lo < v.lo ∧ v.hi < i.hi then as ++ ⟨v.hi, i.hi⟩ :: ⟨i.lo, v.lo⟩ :: bs
    else if v.Covers i then eraseRangeLoop v (as ++ bs) (as.length + 1) as.length
    else if v.lo < i.hi then eraseRangeLoop v (as ++ ⟨i.lo, v.lo⟩ :: bs) (as.length + 1) (as.length + 1)
    else if v.hi < i.hi then eraseRangeLoop v (as ++ ⟨v.hi, i.hi⟩ :: bs) (as.length + 1) (as.length + 1)
    else eraseRangeLoop v (as ++ i :: bs) (as.length + 1) (as.length + 1) := by
  have hlt : as.length < (as ++ i :: bs).length := by simp
  have hget : (as ++ i :: bs)[as.length] = i := by simp
  have hset : ∀ w, (as ++ i :: bs).set as.length w = as ++ w :: bs := by simp
  have herase : (as ++ i :: bs).eraseIdx as.length = as ++ bs := by
    rw [List.eraseIdx_append_of_length_le (Nat.le_refl _)]
    simp
  have hsplit : ∀ w w', (as ++ w' :: bs).insertIdx as.length w = as ++ w :: w' :: bs := by
    intro w w'
    clear hlt hget hset herase
    induction as with
    | nil => rfl
    | cons a as ih => exact congrArg (a :: ·) ih
  rw [eraseRangeLoop, dif_pos hlt]
  dsimp only
  simp only [hget, hset, herase, hsplit]
  rfl

theorem eraseRangeLoop_behind {look put : Nat} (h : ∀ i ∈ is.drop look, v.hi ≤ i.lo) :
    eraseRangeLoop v is look put = is := by
  rw [eraseRangeLoop]
  split
  · next hlt =>
    exact if_pos (h _ (by rw [List.drop_eq_getElem_cons hlt]; exact List.mem_cons_self))
  · rfl

theorem eraseRangeLoop_clear (hv : v.lo < v.hi) (hbs : Apart bs) (hclear : Clear v bs) :
    eraseRangeLoop v (as ++ bs) as.length as.length = as ++ bs.filterMap (keep v) := by
  induction bs generalizing as with
  | nil => exact eraseRangeLoop_behind (by simp)
  | cons i rest ih =>
    obtain ⟨hi, hfirst, hrest⟩ := apart_cons.1 hbs
    have hend := hclear.ends i List.mem_cons_self
    have hnext : ∀ w, eraseRangeLoop v (as ++ w :: rest) (as.length + 1) (as.length + 1) =
        as ++ w :: rest.filterMap (keep v) := by
      intro w
      have := @ih (as ++ [w]) hrest hclear.tail
      simpa using this
    rw [eraseRangeLoop_even, List.filterMap_cons]
    split
    · next hbefore =>
      have hbehind : ∀ j ∈ rest, v.hi ≤ j.lo := by
        intro j hj
        have := hfirst j hj
        omega
      rw [keep, if_pos hbefore, filterMap_keep_of_behind hbehind]
    · next hbefore =>
      rw [if_neg (by omega)]
      split
      · next hover =>
        have hbehind := hclear.behind hbs hover
        have hnone : keep v i = none := by
          rw [keep, if_neg hbefore, if_neg (by have := hover.1; omega)]
        rw [hnone, filterMap_keep_of_behind hbehind]
        refine eraseRangeLoop_behind fun j hj => hbehind j ?_
        rw [List.drop_length_add_append] at hj
        exact List.mem_of_mem_drop hj
      · next hover =>
        have hlower : i.lo < v.lo := by
          unfold Interval.Covers at hover
          omega
        have hkeep : keep v i = some ⟨i.lo, min i.hi v.lo⟩ := by
          rw [keep, if_neg hbefore, if_pos hlower]
        rw [hkeep]
        split
        · next hcut => rw [hnext, Int.min_eq_right (by omega)]
        · next hcut => rw [if_neg (by omega), hnext, Int.min_eq_left (by omega)]

/-! ## Where a range is not clear -/

/-- The interval is empty or has symbols of the range. -/
def Spoiled (v i : Interval) : Prop := i.hi ≤ i.lo ∨ (i.lo < v.hi ∧ v.lo < i.hi)

/-- A pass that looks ahead of the place where it writes never gets rid of what is spoiled: an
interval that it takes out makes room for one that it has covered. -/
theorem exists_spoiled {look put : Nat} (hput : put < look)
    (hlate : ∀ k j, look ≤ k → is[k]? = some j → v.lo ≤ j.lo ∧ j.lo < j.hi)
    (hbad : ∃ k j, k < look ∧ is[k]? = some j ∧ Spoiled v j) :
    ∃ j ∈ eraseRangeLoop v is look put, Spoiled v j := by
  fun_induction eraseRangeLoop v is look put with
  | case1 is look put h i hstop =>
    obtain ⟨k, j, -, hj, hspoiled⟩ := hbad
    exact ⟨j, List.mem_of_getElem? hj, hspoiled⟩
  | case2 is look put h i hgo hinside =>
    have := hlate look i (Nat.le_refl _) (List.getElem?_eq_getElem h)
    omega
  | case3 is look put h i hgo hinside hover ih =>
    have hi := hlate look i (Nat.le_refl _) (List.getElem?_eq_getElem h)
    refine ih (by omega) ?_ ⟨look - 1, i, by omega, ?_, .inr ⟨by omega, by omega⟩⟩
    · intro k j hk hj
      rw [List.getElem?_eraseIdx, if_neg (by omega)] at hj
      exact hlate (k + 1) j (by omega) hj
    · rw [List.getElem?_eraseIdx, if_neg (by omega), show look - 1 + 1 = look by omega]
      exact List.getElem?_eq_getElem h
  | case4 is look put h i hgo hinside hover hcut ih =>
    have hi := hlate look i (Nat.le_refl _) (List.getElem?_eq_getElem h)
    refine ih (by omega) ?_ ⟨put, ⟨i.lo, v.lo⟩, by omega, ?_, .inl hi.1⟩
    · intro k j hk hj
      rw [List.getElem?_set_ne (by omega)] at hj
      exact hlate k j (by omega) hj
    · rw [List.getElem?_set_self (by omega)]
  | case5 is look put h i hgo hinside hover hcut hupper ih =>
    have hi := hlate look i (Nat.le_refl _) (List.getElem?_eq_getElem h)
    omega
  | case6 is look put h i hgo hinside hover hcut hupper ih =>
    have hi := hlate look i (Nat.le_refl _) (List.getElem?_eq_getElem h)
    omega
  | case7 is look put h =>
    obtain ⟨k, j, -, hj, hspoiled⟩ := hbad
    exact ⟨j, List.mem_of_getElem? hj, hspoiled⟩

theorem not_inOrder_or_spoiled (hv : v.lo < v.hi) (hbs : Apart bs) (hclear : ¬ Clear v bs) :
    ¬ InOrder (eraseRangeLoop v (as ++ bs) as.length as.length) ∨
      ∃ j ∈ eraseRangeLoop v (as ++ bs) as.length as.length, Spoiled v j := by
  induction bs generalizing as with
  | nil => exact absurd (clear_of_behind (i := v) (by simp)).1 hclear
  | cons i rest ih =>
    obtain ⟨hi, hfirst, hrest⟩ := apart_cons.1 hbs
    have hbehind : v.hi ≤ i.hi → ∀ j ∈ rest, j.lo < j.hi ∧ v.hi ≤ j.lo := by
      intro hle j hj
      have := hfirst j hj
      have := hrest.nonempty j hj
      omega
    -- the pass goes on behind an interval that the range does not cover and does not end in
    have hnext : ∀ w, ¬ (i.lo < v.hi ∧ v.hi < i.hi) → ¬ v.Covers i →
        ¬ InOrder (eraseRangeLoop v (as ++ w :: rest) (as.length + 1) (as.length + 1)) ∨
          ∃ j ∈ eraseRangeLoop v (as ++ w :: rest) (as.length + 1) (as.length + 1), Spoiled v j := by
      intro w hend hover
      have := @ih (as ++ [w]) hrest fun h => hclear (h.cons hend hover)
      simpa using this
    rw [eraseRangeLoop_even]
    split
    · next hbefore =>
      refine absurd (clear_of_behind (i := v) ?_).1 hclear
      exact List.forall_mem_cons.2 ⟨⟨hi, hbefore⟩, hbehind (by omega)⟩
    split
    · next hinside =>
      left
      intro horder
      have hpair := (List.pairwise_append.1 horder.sorted).2.1
      have := (List.pairwise_cons.1 hpair).1 _ List.mem_cons_self
      dsimp only at this
      omega
    split
    · next hbefore hinside hover =>
      right
      cases rest with
      | nil => exact absurd ((clear_of_behind (by simp)).2 hover) hclear
      | cons j rest =>
        obtain ⟨hj, hfirst', hrest'⟩ := apart_cons.1 hrest
        have hgap := hfirst j List.mem_cons_self
        by_cases hreach : v.hi ≤ j.lo
        · refine absurd ((clear_of_behind (i := i) ?_).2 hover) hclear
          refine List.forall_mem_cons.2 ⟨⟨hj, hreach⟩, fun l hl => ?_⟩
          have := hfirst' l hl
          have := hrest'.nonempty l hl
          omega
        · have hlo := hover.1
          refine exists_spoiled (Nat.lt_succ_self _) ?_ ⟨as.length, j, Nat.lt_succ_self _, by simp, .inr ?_⟩
          · intro k l hk hl
            have hmem : l ∈ j :: rest := by
              rw [List.getElem?_append_right (by omega)] at hl
              exact List.mem_of_getElem? hl
            have := hfirst l hmem
            exact ⟨by omega, hrest.nonempty l hmem⟩
          · omega
    · next hbefore hinside hover =>
      split
      · next hcut =>
        by_cases hend : v.hi < i.hi
        · -- only the lower part of the interval is in the range, and all of it is lost
          right
          have hdrop : ∀ j ∈ (as ++ (⟨i.lo, v.lo⟩ : Interval) :: rest).drop (as.length + 1), v.hi ≤ j.lo := by
            intro j hj
            rw [List.drop_length_add_append] at hj
            exact (hbehind (by omega) j hj).2
          rw [eraseRangeLoop_behind hdrop]
          exact ⟨_, List.mem_append_right _ List.mem_cons_self, .inl (by dsimp only; omega)⟩
        · exact hnext _ (by omega) hover
      · next hcut =>
        rw [if_neg (by omega)]
        exact hnext _ (by omega) hover

/-- The set `t` is what a range leaves of `s`: its intervals are in order, and it has the members of
`s` outside the range. -/
structure Without (s : SymbolSet) (v : Interval) (t : SymbolSet) : Prop where
  inOrder : InOrder t.parts
  mem_iff : ∀ x, t.Contains x ↔ s.Contains x ∧ ¬ v.Contains x

theorem Without.not_spoiled {t : SymbolSet} (h : Without s v t) (hv : v.lo < v.hi) :
    ¬ ∃ j ∈ t.parts, Spoiled v j := by
  rintro ⟨j, hj, hempty | ⟨hlo, hhi⟩⟩
  · have := h.inOrder.nonempty j hj
    omega
  · have hne := h.inOrder.nonempty j hj
    have hx : j.Contains (max j.lo v.lo) := ⟨by omega, by omega⟩
    exact ((h.mem_iff _).1 ⟨j, hj, hx⟩).2 ⟨by omega, by omega⟩

/-- The intervals that are left when a range is taken out. -/
def eraseParts (v : Interval) (is : List Interval) : List Interval :=
  if v.lo = v.hi - 1 then eraseFrom v.lo is else eraseRangeLoop v is 0 0

theorem parts_eraseRange : (s.eraseRange v).parts = eraseParts v s.parts := by
  unfold eraseRange eraseParts parts
  split
  · unfold eraseOne
    cases s.intervals <;> rfl
  · cases s.intervals with
    | none => exact (eraseRangeLoop_behind (by simp)).symm
    | some is => rfl

/-- Taking a range out of a set leaves what it should exactly if the range is one symbol or is clear
of the intervals. -/
theorem without_eraseRange_iff (hs : Apart s.parts) (hv : v.lo < v.hi) :
    Without s v (s.eraseRange v) ↔ v.hi = v.lo + 1 ∨ Clear v s.parts := by
  by_cases hone : v.lo = v.hi - 1
  · have hparts : (s.eraseRange v).parts = eraseFrom v.lo s.parts := by
      rw [parts_eraseRange, eraseParts, if_pos hone]
    refine iff_of_true ⟨hparts ▸ hs.eraseFrom.inOrder, fun x => ?_⟩ (.inl (by omega))
    have hmem : v.Contains x ↔ x = v.lo := by
      unfold Interval.Contains
      omega
    change Held _ x ↔ Held _ x ∧ _
    rw [hparts, held_eraseFrom hs, hmem]
  · have hparts : (s.eraseRange v).parts = eraseRangeLoop v s.parts 0 0 := by
      rw [parts_eraseRange, eraseParts, if_neg hone]
    constructor
    · intro h
      by_contra hcontra
      have hfail := @not_inOrder_or_spoiled _ [] _ hv hs fun hclear => hcontra (.inr hclear)
      simp only [List.nil_append, List.length_nil] at hfail
      rw [← hparts] at hfail
      rcases hfail with horder | hspoiled
      · exact horder h.inOrder
      · exact h.not_spoiled hv hspoiled
    · rintro (htwo | hclear)
      · omega
      · have hrun := @eraseRangeLoop_clear _ [] _ hv hs hclear
        simp only [List.nil_append, List.length_nil] at hrun
        refine ⟨?_, fun x => ?_⟩
        · rw [hparts, hrun]
          exact hs.filterMap_keep.inOrder
        · change Held _ x ↔ Held _ x ∧ _
          rw [hparts, hrun, held_filterMap_keep hclear]

/-! ## Complements

A complement takes the intervals of a set out of one range, from below. What is left need not be in
order, but at most one of its intervals reaches beyond the intervals taken out so far. -/

/-- All intervals start at the symbol or before, and at most one does not end there. -/
inductive Reached (k : Int) : List Interval → Prop
  | nil : Reached k []
  | beside {as bs : List Interval} {i : Interval} (hi : i.lo ≤ k)
    (hends : ∀ j ∈ as ++ bs, j.lo ≤ k ∧ j.hi ≤ k) : Reached k (as ++ i :: bs)

theorem eraseFrom_passes (h : ∀ j ∈ as, j.lo < k ∧ j.hi ≤ k) :
    eraseFrom k (as ++ bs) = as ++ eraseFrom k bs := by
  induction as with
  | nil => rfl
  | cons j as ih =>
    obtain ⟨⟨hlo, hhi⟩, has⟩ := List.forall_mem_cons.1 h
    rw [List.cons_append, eraseFrom, if_neg (by omega), if_neg (by omega), if_neg (by omega),
      if_neg (by omega), if_neg (by omega), ih has, List.cons_append]

theorem eraseRangeLoop_passes (hv : v.lo < v.hi) (h : ∀ j ∈ is, j.lo < v.lo ∧ j.hi ≤ v.lo) :
    eraseRangeLoop v (as ++ (is ++ bs)) as.length as.length =
      eraseRangeLoop v ((as ++ is) ++ bs) (as ++ is).length (as ++ is).length := by
  induction is generalizing as with
  | nil => simp
  | cons j is ih =>
    obtain ⟨⟨hlo, hhi⟩, his⟩ := List.forall_mem_cons.1 h
    have hnext := @ih (as ++ [j]) his
    have hcover : ¬ v.Covers j := fun hover => by
      have := hover.1
      omega
    rw [List.cons_append, eraseRangeLoop_even, if_neg (by omega), if_neg (by omega), if_neg hcover,
      if_neg (by omega), if_neg (by omega)]
    simpa using hnext

/-- What is left of an interval when a range is taken out that starts in it or behind it: the first
piece may reach beyond the range, the others end before it. -/
structure Pieces (v i w : Interval) (ws : List Interval) : Prop where
  mem_iff : ∀ x, Held (w :: ws) x ↔ i.Contains x ∧ ¬ v.Contains x
  first : w.lo ≤ v.hi
  others : ∀ j ∈ ws, j.lo ≤ v.hi ∧ j.hi ≤ v.hi

theorem Pieces.pass (hv : v.lo < v.hi) (hi : i.lo < v.lo) (hle : i.hi ≤ v.lo) : Pieces v i i [] := by
  refine ⟨fun x => ?_, by omega, by simp⟩
  rw [held_singleton]
  simp only [Interval.Contains]
  omega

theorem Pieces.cut (hi : i.lo < v.lo) (hlt : v.lo < i.hi) (hle : i.hi ≤ v.hi) :
    Pieces v i ⟨i.lo, v.lo⟩ [] := by
  refine ⟨fun x => ?_, by dsimp only; omega, by simp⟩
  rw [held_singleton]
  simp only [Interval.Contains]
  omega

theorem Pieces.split (hv : v.lo < v.hi) (hi : i.lo < v.lo) (hlt : v.hi < i.hi) :
    Pieces v i ⟨v.hi, i.hi⟩ [⟨i.lo, v.lo⟩] := by
  refine ⟨fun x => ?_, Int.le_refl _, ?_⟩
  · rw [held_cons, held_singleton]
    simp only [Interval.Contains]
    omega
  · simp only [List.mem_singleton, forall_eq]
    omega

theorem eraseParts_beside (hv : v.lo < v.hi) (hi : i.lo < v.lo)
    (hends : ∀ j ∈ as ++ bs, j.lo < v.lo ∧ j.hi ≤ v.lo) :
    ∃ us w ws, Pieces v i w (us ++ ws) ∧ eraseParts v (as ++ i :: bs) = as ++ (us ++ w :: (ws ++ bs)) := by
  obtain ⟨has, hbs⟩ := List.forall_mem_append.1 hends
  by_cases hone : v.lo = v.hi - 1
  · rw [eraseParts, if_pos hone, eraseFrom_passes has, eraseFrom, if_neg (by omega), if_neg (by omega),
      if_neg (by omega)]
    by_cases hlast : v.lo = i.hi - 1
    · refine ⟨[], _, [], .cut hi (by omega) (by omega), ?_⟩
      rw [if_pos hlast, ← hlast, List.nil_append, List.nil_append]
    by_cases hin : v.lo < i.hi - 1
    · refine ⟨[⟨i.lo, v.lo⟩], _, [], .split hv hi (by omega), ?_⟩
      rw [if_neg hlast, if_pos hin, List.singleton_append, List.nil_append, show v.lo + 1 = v.hi by omega]
    · refine ⟨[], _, [], .pass hv hi (by omega), ?_⟩
      have hrest := @eraseFrom_passes bs [] v.lo hbs
      rw [eraseFrom, List.append_nil] at hrest
      rw [if_neg hlast, if_neg hin, hrest, List.nil_append, List.nil_append]
  · have hrest : ∀ w : Interval,
        eraseRangeLoop v (as ++ w :: bs) (as.length + 1) (as.length + 1) = as ++ w :: bs := by
      intro w
      have hpass := @eraseRangeLoop_passes _ _ (as ++ [w]) [] hv hbs
      have hend := @eraseRangeLoop_behind v ((as ++ [w]) ++ bs) ((as ++ [w]) ++ bs).length
        ((as ++ [w]) ++ bs).length (by simp)
      rw [List.append_nil, List.append_nil, hend] at hpass
      simpa using hpass
    have hstart := @eraseRangeLoop_passes _ _ [] (i :: bs) hv has
    rw [List.nil_append, List.nil_append, List.length_nil] at hstart
    have hover : ¬ v.Covers i := fun hover => by
      have := hover.1
      omega
    rw [eraseParts, if_neg hone, hstart, eraseRangeLoop_even, if_neg (by omega)]
    by_cases hin : v.hi < i.hi
    · exact ⟨[], _, [⟨i.lo, v.lo⟩], .split hv hi hin, if_pos ⟨hi, hin⟩⟩
    by_cases hlt : v.lo < i.hi
    · refine ⟨[], _, [], .cut hi hlt (by omega), ?_⟩
      rw [if_neg (by omega), if_neg hover, if_pos hlt, hrest, List.nil_append, List.nil_append]
    · refine ⟨[], _, [], .pass hv hi (by omega), ?_⟩
      rw [if_neg (by omega), if_neg hover, if_neg hlt, if_neg hin, hrest, List.nil_append, List.nil_append]

theorem Reached.step (h : Reached k is) (hv : v.lo < v.hi) (hk : k < v.lo) :
    Reached v.hi (eraseParts v is) ∧
      ∀ x, Held (eraseParts v is) x ↔ Held is x ∧ ¬ v.Contains x := by
  cases h with
  | nil =>
    have hnil : eraseParts v [] = [] := by
      rw [eraseParts, eraseFrom, eraseRangeLoop_behind (by simp), ite_self]
    rw [hnil]
    exact ⟨.nil, fun x => by simp [held_nil]⟩
  | @beside as bs i hi hends =>
    have hbefore : ∀ j ∈ as ++ bs, j.lo < v.lo ∧ j.hi ≤ v.lo := by
      intro j hj
      have := hends j hj
      omega
    obtain ⟨us, w, ws, hpieces, heq⟩ := eraseParts_beside hv (Int.lt_of_le_of_lt hi hk) hbefore
    rw [heq]
    constructor
    · rw [← List.append_assoc]
      refine .beside hpieces.first fun j hj => ?_
      have hcase : j ∈ us ++ ws ∨ j ∈ as ++ bs := by
        simp only [List.mem_append] at hj ⊢
        tauto
      rcases hcase with hj | hj
      · exact hpieces.others j hj
      · have := hends j hj
        omega
    · intro x
      have hpiece := hpieces.mem_iff x
      have hother : Held as x ∨ Held bs x → ¬ v.Contains x := by
        rw [← held_append]
        rintro ⟨j, hj, hx⟩ hx'
        have := hbefore j hj
        unfold Interval.Contains at hx hx'
        omega
      simp only [held_append, held_cons] at hpiece ⊢
      by_cases hx : v.Contains x
      · simp only [hx, not_true_eq_false, and_false, iff_false, imp_false] at hpiece hother ⊢
        tauto
      · simp only [hx, not_false_eq_true, and_true] at hpiece ⊢
        rw [← hpiece]
        tauto

theorem Reached.run (h : Reached k is) {vs : List Interval} (hvs : Apart vs) (hk : ∀ v ∈ vs, k < v.lo) :
    Held (vs.foldl (fun is v => eraseParts v is) is) x ↔ Held is x ∧ ¬ Held vs x := by
  induction vs generalizing k is with
  | nil => simp [held_nil]
  | cons v vs ih =>
    obtain ⟨hv, hfirst, hrest⟩ := apart_cons.1 hvs
    obtain ⟨hreached, hheld⟩ := h.step hv (hk v List.mem_cons_self)
    rw [List.foldl_cons, ih hreached hrest hfirst, hheld, held_cons, not_or, and_assoc]

/-- No interval with two symbols or more reaches over the start of the range and ends in it. -/
def Fits (lo hi : Int) (vs : List Interval) : Prop :=
  ∀ v ∈ vs, ¬ (v.lo + 1 < v.hi ∧ v.lo ≤ lo ∧ lo < v.hi ∧ v.hi ≤ hi)

theorem eraseParts_before (h : v.hi ≤ lo) : eraseParts v [⟨lo, hi⟩] = [⟨lo, hi⟩] := by
  unfold eraseParts
  split
  · rw [eraseFrom, if_pos (by dsimp only; omega)]
  · exact eraseRangeLoop_behind (by simpa using h)

theorem eraseParts_start (hlo : v.lo ≤ lo) (hhi : lo < v.hi) (h : v.hi = v.lo + 1 ∨ hi < v.hi) :
    Reached v.hi (eraseParts v [⟨lo, hi + 1⟩]) ∧
      ∀ x, Held (eraseParts v [⟨lo, hi + 1⟩]) x ↔ (lo ≤ x ∧ x ≤ hi) ∧ ¬ v.Contains x := by
  have hall : hi < v.hi → Reached v.hi [] ∧ ∀ x, Held [] x ↔ (lo ≤ x ∧ x ≤ hi) ∧ ¬ v.Contains x := by
    intro hlt
    refine ⟨.nil, fun x => iff_of_false held_nil ?_⟩
    unfold Interval.Contains
    omega
  by_cases hone : v.lo = v.hi - 1
  · rw [eraseParts, if_pos hone, eraseFrom, if_neg (by dsimp only; omega)]
    by_cases hlast : v.lo = hi
    · rw [if_pos (by dsimp only; omega)]
      exact hall (by omega)
    · rw [if_neg (by dsimp only; omega), if_pos (by dsimp only; omega)]
      refine ⟨@Reached.beside _ [] [] _ (by dsimp only; omega) (by simp), fun x => ?_⟩
      rw [held_singleton]
      simp only [Interval.Contains]
      omega
  · have hlt : hi < v.hi := by omega
    have hleft : eraseRangeLoop v [⟨lo, hi + 1⟩] 0 0 = [] := by
      refine (@eraseRangeLoop_even _ _ [] []).trans ?_
      rw [if_neg (by dsimp only; omega), if_neg (by dsimp only; omega), if_pos ⟨hlo, hlt⟩]
      exact eraseRangeLoop_behind (by simp)
    rw [eraseParts, if_neg hone, hleft]
    exact hall hlt

theorem held_foldl_of_fits {vs : List Interval} (hvs : Apart vs) (hfits : Fits lo hi vs) :
    Held (vs.foldl (fun is v => eraseParts v is) [⟨lo, hi + 1⟩]) x ↔ (lo ≤ x ∧ x ≤ hi) ∧ ¬ Held vs x := by
  induction vs with
  | nil =>
    rw [List.foldl_nil, held_singleton]
    simp only [Interval.Contains, held_nil, not_false_eq_true, and_true]
    omega
  | cons v vs ih =>
    obtain ⟨hv, hfirst, hrest⟩ := apart_cons.1 hvs
    obtain ⟨hfit, hfits⟩ := List.forall_mem_cons.1 hfits
    by_cases hbefore : v.hi ≤ lo
    · have hout : lo ≤ x → ¬ v.Contains x := fun hx hx' => by
        have := hx'.2
        omega
      rw [List.foldl_cons, eraseParts_before hbefore, ih hrest hfits, held_cons]
      tauto
    by_cases hstart : v.lo ≤ lo
    · obtain ⟨hreached, hheld⟩ := @eraseParts_start _ _ hi hstart (by omega) (by omega)
      rw [List.foldl_cons, hreached.run hrest hfirst, hheld, held_cons, not_or, and_assoc]
    · have hreached : Reached lo [⟨lo, hi + 1⟩] :=
        @Reached.beside _ [] [] _ (Int.le_refl _) (by simp)
      have hbehind : ∀ w ∈ v :: vs, lo < w.lo := by
        refine List.forall_mem_cons.2 ⟨by omega, fun w hw => ?_⟩
        have := hfirst w hw
        omega
      rw [hreached.run hvs hbehind, held_singleton]
      simp only [Interval.Contains, Int.lt_add_one_iff]

/-- An interval that reaches over the start of the range takes all of it, and the symbol behind the
interval is lost. -/
theorem not_held_foldl {vs : List Interval} (hvs : Apart vs) (hv : v ∈ vs) (htwo : v.lo + 1 < v.hi)
    (hlo : v.lo ≤ lo) (hhi : lo < v.hi) (hend : v.hi ≤ hi) :
    ¬ Held (vs.foldl (fun is v => eraseParts v is) [⟨lo, hi + 1⟩]) v.hi ∧ ¬ Held vs v.hi := by
  induction vs with
  | nil => exact absurd hv List.not_mem_nil
  | cons u vs ih =>
    obtain ⟨hu, hfirst, hrest⟩ := apart_cons.1 hvs
    rcases List.mem_cons.1 hv with rfl | hv
    · have hover : ¬ v.Covers ⟨lo, hi + 1⟩ := fun hover => by
        have := hover.2
        dsimp only at this
        omega
      have hleft : eraseParts v [⟨lo, hi + 1⟩] = [⟨lo, v.lo⟩] := by
        rw [eraseParts, if_neg (by omega)]
        refine (@eraseRangeLoop_even _ _ [] []).trans ?_
        rw [if_neg (by dsimp only; omega), if_neg (by dsimp only; omega), if_neg hover,
          if_pos (by dsimp only; omega)]
        exact eraseRangeLoop_behind (by simp)
      have hreached : Reached v.hi [⟨lo, v.lo⟩] :=
        @Reached.beside _ [] [] _ (by dsimp only; omega) (by simp)
      rw [List.foldl_cons, hleft, hreached.run hrest hfirst, held_singleton, held_cons]
      constructor
      · rintro ⟨hempty, -⟩
        simp only [Interval.Contains] at hempty
        omega
      · rintro (hself | ⟨w, hw, hx⟩)
        · exact absurd hself.2 (Int.lt_irrefl _)
        · have := hfirst w hw
          have := hx.1
          omega
    · have hgap := hfirst v hv
      obtain ⟨hheld, hvs'⟩ := ih hrest hv
      rw [List.foldl_cons, eraseParts_before (by omega), held_cons]
      refine ⟨hheld, not_or.2 ⟨fun hx => ?_, hvs'⟩⟩
      have := hx.2
      omega

theorem parts_foldl (vs : List Interval) :
    (vs.foldl eraseRange s).parts = vs.foldl (fun is v => eraseParts v is) s.parts := by
  induction vs generalizing s with
  | nil => rfl
  | cons v vs ih => rw [List.foldl_cons, ih, parts_eraseRange, List.foldl_cons]

theorem Built.eq_empty (hs : Built s) (h : s.intervals = none) : s = .empty := by
  cases hs with
  | empty => rfl
  | insert => cases h

/-- A complement can be taken of a set to which something was added, and it is right exactly if the
intervals fit. -/
theorem complement_iff (hs : Built s) (lo hi : Int) :
    (∃ t, s.complement lo hi = .ok t ∧ ∀ x, t.Contains x ↔ (lo ≤ x ∧ x ≤ hi) ∧ ¬ s.Contains x) ↔
      s ≠ .empty ∧ Fits lo hi s.parts := by
  cases hintervals : s.intervals with
  | none =>
    have hempty := hs.eq_empty hintervals
    subst hempty
    refine iff_of_false ?_ fun h => h.1 rfl
    rintro ⟨t, ht, -⟩
    cases ht
  | some is =>
    have hparts : s.parts = is := by rw [parts, hintervals, Option.getD_some]
    have hrun : s.complement lo hi = .ok (is.foldl eraseRange (range lo hi)) := by
      rw [complement, hintervals]
    have hapart : Apart is := hparts ▸ hs.apart
    have hheld : ∀ x, (is.foldl eraseRange (range lo hi)).Contains x ↔
        Held (is.foldl (fun is v => eraseParts v is) [⟨lo, hi + 1⟩]) x := by
      intro x
      change Held (is.foldl eraseRange (range lo hi)).parts x ↔ _
      rw [parts_foldl]
      rfl
    have hmem : ∀ x, s.Contains x ↔ Held is x := fun x => by
      change Held s.parts x ↔ _
      rw [hparts]
    rw [hparts, hrun]
    constructor
    · rintro ⟨t, ht, hright⟩
      cases ht
      refine ⟨?_, fun v hv hbad => ?_⟩
      · rintro rfl
        cases hintervals
      · obtain ⟨htwo, hlo, hhi, hend⟩ := hbad
        obtain ⟨hlost, hout⟩ := not_held_foldl hapart hv htwo hlo hhi hend
        exact hlost ((hheld _).1 ((hright _).2 ⟨by omega, fun h => hout ((hmem _).1 h)⟩))
    · rintro ⟨-, hfits⟩
      refine ⟨_, rfl, fun x => ?_⟩
      rw [hheld, hmem, held_foldl_of_fits hapart hfits]

/-- For every set that is built by additions, taking out a range leaves the members outside the range,
in order, exactly if the range is one symbol or is clear of the intervals. A complement has the
symbols of its range that are not in the set exactly if something was added and the intervals fit. -/
theorem eraseRange_complement_iff (hs : Built s) :
    (∀ v : Interval, v.lo < v.hi →
      (Without s v (s.eraseRange v) ↔ v.hi = v.lo + 1 ∨ Clear v s.parts)) ∧
    ∀ lo hi, (∃ t, s.complement lo hi = .ok t ∧ ∀ x, t.Contains x ↔ (lo ≤ x ∧ x ≤ hi) ∧ ¬ s.Contains x) ↔
      s ≠ .empty ∧ Fits lo hi s.parts :=
  ⟨fun _ hv => without_eraseRange_iff hs.apart hv, complement_iff hs⟩

/-- Two to eight are taken out of one to three and six to seven: the first interval keeps its start,
the second is gone. The complement from zero to nine has what is in neither. -/
theorem eraseRange_complement_iff_overlaps :
    ∃ s : SymbolSet, Built s ∧ s.parts = [⟨1, 4⟩, ⟨6, 8⟩] ∧ Without s ⟨2, 9⟩ (s.eraseRange ⟨2, 9⟩) ∧
      ∃ t, s.complement 0 9 = .ok t ∧ ∀ x, t.Contains x ↔ (0 ≤ x ∧ x ≤ 9) ∧ ¬ s.Contains x := by
  have hs : Built ((SymbolSet.empty.insert ⟨6, 8⟩).insert ⟨1, 4⟩) :=
    .insert (.insert .empty (by decide)) (by decide)
  obtain ⟨herase, hcomplement⟩ := eraseRange_complement_iff hs
  refine ⟨_, hs, by decide, (herase ⟨2, 9⟩ (by decide)).2 (.inr ⟨by decide, by decide⟩), ?_⟩
  exact (hcomplement 0 9).2 ⟨by decide, by unfold Fits; decide⟩

/-- Three to seven taken out of five to ten should leave eight, and leaves nothing. Taken out of zero
to nine, they leave two pieces in the wrong order. -/
theorem eraseRange_loses :
    Built (range 5 10) ∧ (range 5 10).Contains 8 ∧ ¬ (Interval.mk 3 8).Contains 8 ∧
      ¬ ((range 5 10).eraseRange ⟨3, 8⟩).Contains 8 ∧
      Built (range 0 9) ∧ ¬ InOrder ((range 0 9).eraseRange ⟨3, 8⟩).parts := by
  have hlost : ((range 5 10).eraseRange ⟨3, 8⟩).parts = [⟨5, 3⟩] := by
    cbv
  have hturned : ((range 0 9).eraseRange ⟨3, 8⟩).parts = [⟨8, 10⟩, ⟨0, 3⟩] := by
    cbv
  refine ⟨.insert .empty (by decide), by decide, by decide, ?_, .insert .empty (by decide), ?_⟩
  · unfold Contains
    rw [hlost]
    decide
  · rw [hturned]
    intro h
    exact absurd h.sorted (by decide)

end SymbolSet

end Throbac
