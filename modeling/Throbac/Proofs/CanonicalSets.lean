import Throbac.Proofs.SymbolSets
import Mathlib.Data.List.Sort
import Mathlib.Data.Set.Card

/-!
# Sets of symbols have one form

However a set is made, by adding symbols, intervals and other sets and by taking out single symbols,
its intervals have members, are in order and have a gap between any two. It has the members it should,
lists them in increasing order and counts them. So two sets with the same members show the same text,
except that an empty set is shown in braces only if nothing was ever added to it.
-/
namespace Throbac

namespace SymbolSet

variable {v i l : Interval} {is vs : List Interval} {s t : SymbolSet} {x k : Int} {A : Set Int}

/-! ## Members after additions -/

theorem held_absorb (h : Apart is) (hl : ∀ j ∈ is, l.lo ≤ j.lo) :
    Held (absorb l is) x ↔ l.Contains x ∨ Held is x := by
  induction is with
  | nil => rw [absorb, held_cons]
  | cons r rest ih =>
    obtain ⟨hr, -, hrest⟩ := apart_cons.1 h
    obtain ⟨hlr, hl⟩ := List.forall_mem_cons.1 hl
    rw [absorb]
    split
    · have hcover : r.Contains x → l.Contains x := fun hx => ⟨Int.le_trans hlr hx.1, by have := hx.2; omega⟩
      rw [ih hrest hl, held_cons]
      tauto
    · split
      · have hjoin : (⟨l.lo, r.hi⟩ : Interval).Contains x ↔ l.Contains x ∨ r.Contains x := by
          unfold Interval.Contains
          dsimp only
          omega
        rw [held_cons, held_cons, hjoin, or_assoc]
      · rw [held_cons]

theorem held_insertInto (h : Apart is) (hv : v.lo < v.hi) :
    Held (insertInto v is) x ↔ v.Contains x ∨ Held is x := by
  induction is with
  | nil => rw [insertInto, held_cons]
  | cons i rest ih =>
    obtain ⟨hi, hfirst, hrest⟩ := apart_cons.1 h
    rw [insertInto]
    split
    · rw [held_cons]
    split
    · have hjoin : (⟨v.lo, i.hi⟩ : Interval).Contains x ↔ v.Contains x ∨ i.Contains x := by
        unfold Interval.Contains
        dsimp only
        omega
      rw [held_cons, held_cons, hjoin, or_assoc]
    split
    · have hjoin : (⟨min i.lo v.lo, max i.hi v.hi⟩ : Interval).Contains x ↔ v.Contains x ∨ i.Contains x := by
        unfold Interval.Contains
        dsimp only
        omega
      rw [held_absorb hrest fun j hj => by have := hfirst j hj; dsimp only; omega, held_cons, hjoin, or_assoc]
    · rw [held_cons, ih hrest, held_cons, or_left_comm]

theorem parts_insert : (s.insert v).parts = insertInto v s.parts := by
  unfold insert parts
  cases s.intervals <;> rfl

theorem Apart.insert (h : Apart s.parts) (hv : v.lo < v.hi) : Apart (s.insert v).parts := by
  rw [parts_insert]
  exact h.insertInto hv

theorem contains_insert (h : Apart s.parts) (hv : v.lo < v.hi) :
    (s.insert v).Contains x ↔ v.Contains x ∨ s.Contains x := by
  change Held _ x ↔ _ ∨ Held _ x
  rw [parts_insert, held_insertInto h hv]

theorem contains_singleton : (⟨k, k + 1⟩ : Interval).Contains x ↔ x = k := by
  unfold Interval.Contains
  dsimp only
  omega

theorem contains_insertOne (h : Apart s.parts) : (s.insertOne k).Contains x ↔ x = k ∨ s.Contains x := by
  rw [insertOne, contains_insert h (Int.lt_succ k), contains_singleton]

theorem apart_union (h : Apart s.parts) (ht : ∀ v ∈ t.parts, v.lo < v.hi) :
    Apart (s.union t).parts ∧ ∀ x, (s.union t).Contains x ↔ s.Contains x ∨ t.Contains x := by
  have hrun : ∀ vs : List Interval, (∀ v ∈ vs, v.lo < v.hi) → ∀ {s : SymbolSet}, Apart s.parts →
      Apart (vs.foldl SymbolSet.insert s).parts ∧
        ∀ x, (vs.foldl SymbolSet.insert s).Contains x ↔ s.Contains x ∨ Held vs x := by
    intro vs hvs
    induction vs with
    | nil => exact fun hs => ⟨hs, fun x => by simp [held_nil]⟩
    | cons v vs ih =>
      obtain ⟨hv, hvs⟩ := List.forall_mem_cons.1 hvs
      intro s hs
      obtain ⟨hapart, hmem⟩ := ih hvs (hs.insert hv)
      refine ⟨hapart, fun x => ?_⟩
      rw [List.foldl_cons, hmem, contains_insert hs hv, held_cons, or_comm (a := v.Contains x), or_assoc]
  exact hrun t.parts ht h

theorem parts_eraseOne : (s.eraseOne k).parts = eraseFrom k s.parts := by
  unfold eraseOne parts
  cases s.intervals <;> rfl

theorem Apart.eraseOne (h : Apart s.parts) (k : Int) : Apart (s.eraseOne k).parts := by
  rw [parts_eraseOne]
  exact h.eraseFrom

theorem contains_eraseOne (h : Apart s.parts) : (s.eraseOne k).Contains x ↔ s.Contains x ∧ x ≠ k := by
  change Held _ x ↔ Held _ x ∧ _
  rw [parts_eraseOne, held_eraseFrom h]

/-! ## Additions of a set to itself -/

theorem insertInto_of_mem (h : Apart is) (hi : i ∈ is) : insertInto i is = is := by
  induction is with
  | nil => cases hi
  | cons j rest ih =>
    obtain ⟨hj, hfirst, hrest⟩ := apart_cons.1 h
    rw [insertInto]
    rcases List.mem_cons.1 hi with rfl | hi
    · have hself : (⟨min i.lo i.lo, max i.hi i.hi⟩ : Interval) = i := by rw [Int.min_self, Int.max_self]
      rw [if_neg (by omega), if_neg (by omega), if_pos (by omega), hself]
      cases rest with
      | nil => rfl
      | cons r rest =>
        have hgap := hfirst r List.mem_cons_self
        have hr := hrest.nonempty r List.mem_cons_self
        rw [absorb, if_neg (by omega), if_neg (by omega)]
    · have hgap := hfirst i hi
      have hne := hrest.nonempty i hi
      rw [if_neg (by omega), if_neg (by omega), if_neg (by omega), ih hrest hi]

theorem insert_of_mem (h : Apart s.parts) (hi : i ∈ s.parts) : s.insert i = s := by
  obtain ⟨_ | is⟩ := s
  · cases hi
  · exact congrArg (SymbolSet.mk ∘ some) (insertInto_of_mem h hi)

theorem consolidate_eq (h : Apart s.parts) : s.consolidate = s := by
  have hrun : ∀ places place, s.consolidateFrom place places = s := by
    intro places
    induction places with
    | zero => exact fun _ => rfl
    | succ places ih =>
      intro place
      rw [consolidateFrom]
      split
      · next i hi => rw [insert_of_mem h (List.mem_of_getElem? hi), ih]
      · rfl
  exact hrun _ _

/-! ## Listing the members -/

theorem pairwise_toList (h : Apart s.parts) : s.toList.Pairwise (· < ·) := by
  unfold toList
  generalize s.parts = is at h
  induction is with
  | nil => exact .nil
  | cons i is ih =>
    obtain ⟨hi, hfirst, hrest⟩ := apart_cons.1 h
    rw [List.flatMap_cons, List.pairwise_append]
    refine ⟨?_, ih hrest, ?_⟩
    · rw [Interval.toList, List.pairwise_map]
      exact List.pairwise_lt_range.imp fun hlt => by omega
    · intro x hx y hy
      obtain ⟨j, hj, hy⟩ := List.mem_flatMap.1 hy
      have hx := (Interval.mem_toList.1 hx).2
      have hy := (Interval.mem_toList.1 hy).1
      have := hfirst j hj
      omega

theorem total_eq (is : List Interval) : total is = (is.flatMap Interval.toList).length := by
  induction is with
  | nil => rfl
  | cons i is ih => rw [total, ih, List.flatMap_cons, List.length_append, Interval.length_toList]

/-! ## All sets that can be made -/

/-- The set is made by the additions and removals that make the set of its members. -/
inductive Denotes : SymbolSet → Set Int → Prop
  | empty : Denotes .empty ∅
  | insertOne {s : SymbolSet} {A : Set Int} (x : Int) : Denotes s A → Denotes (s.insertOne x) ({x} ∪ A)
  | insert {s : SymbolSet} {A : Set Int} {v : Interval} : v.lo < v.hi → Denotes s A →
    Denotes (s.insert v) ({x | v.lo ≤ x ∧ x < v.hi} ∪ A)
  | union {s t : SymbolSet} {A B : Set Int} : Denotes s A → Denotes t B → Denotes (s.union t) (A ∪ B)
  /-- A set may be added to itself. -/
  | consolidate {s : SymbolSet} {A : Set Int} : Denotes s A → Denotes s.consolidate A
  | eraseOne {s : SymbolSet} {A : Set Int} (x : Int) : Denotes s A → Denotes (s.eraseOne x) (A \ {x})

theorem Denotes.apart (h : Denotes s A) : Apart s.parts ∧ ∀ x, s.Contains x ↔ x ∈ A := by
  induction h with
  | empty => exact ⟨apart_nil, fun x => iff_of_false held_nil (Set.notMem_empty x)⟩
  | insertOne k _ ih =>
    refine ⟨ih.1.insert (Int.lt_succ k), fun x => ?_⟩
    rw [contains_insertOne ih.1, ih.2, Set.mem_union, Set.mem_singleton_iff]
  | insert hv _ ih =>
    refine ⟨ih.1.insert hv, fun x => ?_⟩
    rw [contains_insert ih.1 hv, ih.2, Set.mem_union, Set.mem_ofPred_eq,
      Interval.Contains]
  | union _ _ ihs iht =>
    obtain ⟨hapart, hmem⟩ := apart_union ihs.1 iht.1.nonempty
    refine ⟨hapart, fun x => ?_⟩
    rw [hmem, ihs.2, iht.2, Set.mem_union]
  | consolidate _ ih =>
    rwa [consolidate_eq ih.1]
  | eraseOne k _ ih =>
    refine ⟨ih.1.eraseOne k, fun x => ?_⟩
    rw [contains_eraseOne ih.1, ih.2, Set.mem_sdiff, Set.mem_singleton_iff]

theorem Denotes.mem_toList_iff (h : Denotes s A) : x ∈ s.toList ↔ x ∈ A := by
  rw [mem_toList, h.apart.2]

theorem Denotes.toList_eq (hs : Denotes s A) (ht : Denotes t A) : s.toList = t.toList := by
  have hsorted := pairwise_toList hs.apart.1
  have hsorted' := pairwise_toList ht.apart.1
  have hperm : s.toList.Perm t.toList :=
    (List.perm_ext_iff_of_nodup (hsorted.imp Int.ne_of_lt) (hsorted'.imp Int.ne_of_lt)).2 fun x => by
      rw [hs.mem_toList_iff, ht.mem_toList_iff]
  exact hperm.eq_of_pairwise (fun a b _ _ hab hba => absurd (Int.lt_trans hab hba) (Int.lt_irrefl a))
    hsorted hsorted'

theorem Denotes.length_toList (h : Denotes s A) : s.toList.length = A.ncard := by
  have hA : (s.toList.toFinset : Set Int) = A := by
    ext x
    rw [Finset.mem_coe, List.mem_toFinset, h.mem_toList_iff]
  rw [← List.toFinset_card_of_nodup ((pairwise_toList h.apart.1).imp Int.ne_of_lt), ← Set.ncard_coe_finset, hA]

/-- The members of a set by name, in braces unless there is only one or none. -/
def namesOf (xs : List Int) (voc : Vocabulary) : Except Fault String := do
  let names ← xs.mapM voc.display
  let body := ", ".intercalate names
  return if xs.length > 1 then "\x7b" ++ body ++ "\x7d" else body

theorem length_display_eq (hs : s.intervals ≠ none) :
    s.length = .ok s.toList.length ∧ ∀ voc, s.display voc = namesOf s.toList voc := by
  obtain ⟨is, his⟩ := Option.ne_none_iff_exists'.1 hs
  have hlist : s.toList = is.flatMap Interval.toList := by rw [toList, parts, his, Option.getD_some]
  constructor
  · rw [length, his, hlist, ← total_eq]
  · intro voc
    rw [display, his, namesOf, hlist, ← total_eq]

theorem Denotes.display_ne (hs : Denotes s A) (ht : Denotes t A) (hnone : s.intervals = none)
    (hlist : t.intervals ≠ none) (voc : Vocabulary) :
    ¬ A.Nonempty ∧ s.display voc ≠ t.display voc := by
  have hnil : s.toList = [] := by rw [toList, parts, hnone, Option.getD_none, List.flatMap_nil]
  constructor
  · rintro ⟨x, hx⟩
    rw [← hs.mem_toList_iff, hnil] at hx
    cases hx
  · rw [(length_display_eq hlist).2, ← hs.toList_eq ht, hnil, display, hnone]
    exact fun h => absurd (Except.ok.inj h) (by decide)

/-- For every set that is made by adding symbols, intervals with members and other sets and by taking
out symbols: its intervals have members, are in order and apart, it has the members it should, lists
them in increasing order and, once it has a list of intervals, counts them. Two such sets with the
same members show the same text exactly if they have a member, or both or neither of them ever got a
list. -/
theorem canonical_of_denotes (hs : Denotes s A) :
    Apart s.parts ∧ (∀ x, s.contains x = true ↔ x ∈ A) ∧
    s.toList.Pairwise (· < ·) ∧ (∀ x, x ∈ s.toList ↔ x ∈ A) ∧
    (s.intervals ≠ none → s.length = .ok A.ncard) ∧
    ∀ t, Denotes t A → ∀ voc, s.display voc = t.display voc ↔
      A.Nonempty ∨ (s.intervals = none ↔ t.intervals = none) := by
  refine ⟨hs.apart.1, fun x => ?_, pairwise_toList hs.apart.1, fun x => hs.mem_toList_iff, ?_, ?_⟩
  · rw [contains_iff, hs.apart.2]
  · intro hlist
    rw [(length_display_eq hlist).1, hs.length_toList]
  · intro t ht voc
    by_cases hslist : s.intervals = none <;> by_cases htlist : t.intervals = none
    · rw [display, display, hslist, htlist]
      simp
    · obtain ⟨hempty, hne⟩ := hs.display_ne ht hslist htlist voc
      simp [hempty, hne, hslist, htlist]
    · obtain ⟨hempty, hne⟩ := ht.display_ne hs htlist hslist voc
      simp [hempty, hne.symm, hslist, htlist]
    · rw [(length_display_eq hslist).2, (length_display_eq htlist).2, hs.toList_eq ht]
      simp [hslist, htlist]

/-- Five is added and taken out again: the set has no members, as the one to which nothing was added,
but is not shown as that one is. -/
theorem canonical_of_denotes_emptied : ∃ A, Denotes ((empty.insertOne 5).eraseOne 5) A ∧ Denotes empty A ∧
    ∀ voc, ((empty.insertOne 5).eraseOne 5).display voc ≠ empty.display voc := by
  have hs : Denotes ((empty.insertOne 5).eraseOne 5) (({5} ∪ ∅) \ {5}) := .eraseOne 5 (.insertOne 5 .empty)
  have hA : (({5} ∪ ∅) \ {5} : Set Int) = ∅ := by
    rw [Set.union_empty, Set.sdiff_self]
  rw [hA] at hs
  obtain ⟨-, -, -, -, -, hdisplay⟩ := canonical_of_denotes hs
  refine ⟨∅, hs, .empty, fun voc h => ?_⟩
  rcases (hdisplay _ .empty voc).1 h with ⟨x, hx⟩ | hlist
  · exact hx
  · exact absurd (hlist.2 rfl) (by decide)

end SymbolSet

end Throbac
