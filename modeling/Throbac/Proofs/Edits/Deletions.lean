import Throbac.Proofs.Edits.Rendering

/-!
# Deletions

A program of deletions is carried out exactly if each deletion takes in or keeps clear of every
earlier one. Its text is then that of the tokens outside all deleted ranges, and asking again gives
the same text. A deletion that overlaps an earlier one in another way breaks the program off.
-/
namespace Throbac

/-- A range of tokens, both ends included. -/
structure Span where
  first : Nat
  last : Nat
  deriving DecidableEq

namespace Span

def Covers (r p : Span) : Prop := r.first ≤ p.first ∧ p.last ≤ r.last

def Apart (r p : Span) : Prop := p.last < r.first ∨ r.last < p.first

instance (r p : Span) : Decidable (r.Covers p) := inferInstanceAs (Decidable (_ ∧ _))

/-- A range of tokens of the tape. -/
structure Valid (T : Tape) (p : Span) : Prop where
  ordered : p.first ≤ p.last
  inside : p.last ≤ T.last

def deletion (p : Span) : Edit := ⟨.replace p.last, p.first, some ""⟩

def perform (p : Span) : EditM Unit := TokenEdits.delete "default" p.first p.last

end Span

namespace TokenEdits

variable {T : Tape} {s : TokenEdits} {rs rs' : List (Option Span)} {i : Nat} {r : Span}

/-- The default program consists of deletions, with gaps for those that were dropped. -/
def Deletes (s : TokenEdits) (rs : List (Option Span)) : Prop :=
  s.listing = rs.map (Option.map Span.deletion)

theorem Deletes.getElem? (h : s.Deletes rs) :
    (s.program "default")[i]? = rs[i]?.map (Option.map Span.deletion) := by
  rw [getElem?_program, h, List.getElem?_map]

theorem Deletes.size_eq (h : s.Deletes rs) : (s.program "default").size = rs.length := by
  rw [← Array.length_toList, show (s.program "default").toList = _ from h, List.length_map]

theorem Deletes.drop (h : s.Deletes rs) (k : Nat) :
    ∃ s', drop "default" k s = .ok ⟨⟩ s' ∧ s'.stream = s.stream ∧ s'.Deletes (rs.set k none) := by
  refine ⟨_, rfl, rfl, ?_⟩
  rw [Deletes, listing_setProgram, Array.toList_setIfInBounds, List.map_set]
  exact congrArg (·.set k none) h

/-- The ranges before a position, each with its own. -/
def spansBefore (rs : List (Option Span)) (i : Nat) : List (Nat × Span) :=
  (rs.take i).zipIdx.filterMap fun (o, k) => o.map ((k, ·))

theorem mem_spansBefore {k : Nat} {p : Span} :
    (k, p) ∈ spansBefore rs i ↔ k < i ∧ rs[k]? = some (some p) := by
  simp only [spansBefore, List.mem_filterMap, Prod.exists, List.mem_zipIdx_iff_getElem?,
    List.getElem?_take, Option.map_eq_some_iff, Prod.mk.injEq]
  constructor
  · rintro ⟨o, b, ho, q, rfl, rfl, rfl⟩
    split at ho
    · exact ⟨‹_›, ho⟩
    · cases ho
  · rintro ⟨hk, hp⟩
    exact ⟨some p, k, by rw [if_pos hk, hp], p, rfl, rfl, rfl⟩

theorem Deletes.earlier (h : s.Deletes rs) :
    TokenEdits.earlier (s.program "default") i =
      (spansBefore rs i).map fun x => (x.1, x.2.deletion) := by
  have hlist : (s.program "default").toList = rs.map (Option.map Span.deletion) := h
  rw [TokenEdits.earlier, hlist, spansBefore, ← List.map_take, List.zipIdx_map, List.filterMap_map,
    List.map_filterMap]
  refine List.filterMap_congr fun x _ => ?_
  obtain ⟨o, k⟩ := x
  cases o <;> rfl

/-- The ranges without those listed that a range takes in. -/
def sweep (r : Span) (M : List (Nat × Span)) (rs : List (Option Span)) : List (Option Span) :=
  M.foldl (fun rs x => if r.Covers x.2 then rs.set x.1 none else rs) rs

theorem length_sweep (M : List (Nat × Span)) : (sweep r M rs).length = rs.length := by
  refine List.foldlRecOn M _ (motive := fun l : List (Option Span) => l.length = rs.length) rfl fun l hl x _ => ?_
  split
  · rw [List.length_set, hl]
  · exact hl

theorem getElem?_sweep {M : List (Nat × Span)} {j : Nat} :
    (sweep r M rs)[j]? = if M.any fun x => x.1 = j ∧ r.Covers x.2 then rs[j]?.map fun _ => none
      else rs[j]? := by
  unfold sweep
  induction M generalizing rs with
  | nil => rfl
  | cons x M ih =>
    rw [List.foldl_cons, ih, List.any_cons]
    by_cases hc : r.Covers x.2
    · by_cases hj : x.1 = j
      · subst hj
        simp only [hc, if_true, List.getElem?_set_self', and_self, decide_true, Bool.true_or]
        cases rs[x.1]? <;> simp
      · rw [decide_eq_false fun h => hj h.1, Bool.false_or, if_pos hc, List.getElem?_set_ne hj]
    · rw [decide_eq_false fun h => hc h.2, Bool.false_or, if_neg hc]

theorem absorbReplaces_ok {M : List (Nat × Span)} (h : s.Deletes rs)
    (hM : ∀ x ∈ M, r.Covers x.2 ∨ r.Apart x.2) :
    ∃ s', absorbReplaces "default" i (M.map fun x => (x.1, x.2.deletion)) r.deletion s = .ok ⟨⟩ s' ∧
      s'.stream = s.stream ∧ s'.Deletes (sweep r M rs) := by
  induction M generalizing s rs with
  | nil => exact ⟨s, rfl, rfl, h⟩
  | cons x M ih =>
    have hM' := fun y hy => hM y (List.mem_cons_of_mem x hy)
    rw [List.map_cons, absorbReplaces, sweep, List.foldl_cons]
    by_cases hc : r.Covers x.2
    · obtain ⟨s₁, hdrop, hs₁, hd₁⟩ := h.drop x.1
      obtain ⟨s', hrun, hs', hd'⟩ := ih hd₁ hM'
      refine ⟨s', ?_, hs'.trans hs₁, by rwa [if_pos hc]⟩
      rw [if_pos (by exact ⟨Int.ofNat_le.2 hc.1, Int.ofNat_le.2 hc.2⟩), Run.bind_ok hdrop, hrun]
    · obtain ⟨s', hrun, hs', hd'⟩ := ih h hM'
      refine ⟨s', ?_, hs', by rwa [if_neg hc]⟩
      rw [if_neg, if_pos, hrun]
      · exact ((hM x List.mem_cons_self).resolve_left hc).imp Int.ofNat_lt.2 Int.ofNat_lt.2
      · exact fun h => hc ⟨Int.ofNat_le.1 h.1, Int.ofNat_le.1 h.2⟩

theorem absorbReplaces_error {M : List (Nat × Span)} (h : s.Deletes rs)
    (hM : ∃ x ∈ M, ¬ r.Covers x.2 ∧ ¬ r.Apart x.2) :
    ∃ s', absorbReplaces "default" i (M.map fun x => (x.1, x.2.deletion)) r.deletion s =
      .error .wrongType s' := by
  induction M generalizing s rs with
  | nil =>
    obtain ⟨x, hx, -⟩ := hM
    cases hx
  | cons x M ih =>
    rw [List.map_cons, absorbReplaces]
    by_cases hc : r.Covers x.2
    · obtain ⟨s₁, hdrop, -, hd₁⟩ := h.drop x.1
      obtain ⟨s', hrun⟩ := ih hd₁ (by grind)
      refine ⟨s', ?_⟩
      rw [if_pos (by exact ⟨Int.ofNat_le.2 hc.1, Int.ofNat_le.2 hc.2⟩), Run.bind_ok hdrop, hrun]
    · rw [if_neg fun h => hc ⟨Int.ofNat_le.1 h.1, Int.ofNat_le.1 h.2⟩]
      by_cases ha : r.Apart x.2
      · obtain ⟨s', hrun⟩ := ih h (by grind)
        refine ⟨s', ?_⟩
        rw [if_pos (by exact ha.imp Int.ofNat_lt.2 Int.ofNat_lt.2), hrun]
      · exact ⟨s, by rw [if_neg fun h => ha (h.imp Int.ofNat_lt.1 Int.ofNat_lt.1)]; rfl⟩

theorem filter_deletions (M : List (Nat × Span)) :
    (M.map fun x => (x.1, x.2.deletion)).filter (·.2.isInsert) = [] ∧
      (M.map fun x => (x.1, x.2.deletion)).filter (!·.2.isInsert) =
        M.map fun x => (x.1, x.2.deletion) := by
  constructor
  · rw [List.filter_eq_nil_iff, List.forall_mem_map]
    exact fun x _ h => by cases h
  · rw [List.filter_eq_self, List.forall_mem_map]
    exact fun x _ => rfl

theorem Deletes.reduceReplace_eq (h : s.Deletes rs) (hr : rs[i]? = some (some r)) :
    reduceReplace "default" i s = absorbReplaces "default" i
      ((spansBefore rs i).map fun x => (x.1, x.2.deletion)) r.deletion s := by
  obtain ⟨hnone, hall⟩ := filter_deletions (spansBefore rs i)
  rw [reduceReplace, Run.get_bind, h.getElem?, hr]
  simp only [Option.map_some]
  rw [if_pos (by rfl), Run.get_bind, h.earlier, hnone]
  refine (Run.bind_ok rfl).trans ?_
  rw [Run.get_bind, h.earlier, hall]

theorem Deletes.reduceReplace_gap (h : s.Deletes rs) (hr : rs[i]? = some none) :
    reduceReplace "default" i s = .ok ⟨⟩ s := by
  rw [reduceReplace, Run.get_bind, h.getElem?, hr]
  rfl

theorem Deletes.reduceInsert_eq (h : s.Deletes rs) : reduceInsert "default" i s = .ok ⟨⟩ s := by
  rw [reduceInsert, Run.get_bind, h.getElem?]
  rcases rs[i]? with _ | _ | r <;> rfl

/-- Each range before a position takes in or keeps clear of every earlier one. -/
def Compatible (rs : List (Option Span)) (n : Nat) : Prop :=
  ∀ (j k : Nat) (p q : Span), j < k → k < n → rs[j]? = some (some p) → rs[k]? = some (some q) →
    q.Covers p ∨ q.Apart p

/-- What is left after the ranges before `n` were reduced: ranges that keep clear of each other and
take in all that were dropped. -/
structure Reduced (rs : List (Option Span)) (n : Nat) (rs' : List (Option Span)) : Prop where
  length : rs'.length = rs.length
  kept : ∀ (j : Nat) (p : Span), rs'[j]? = some (some p) → rs[j]? = some (some p)
  ahead : ∀ j : Nat, n ≤ j → rs'[j]? = rs[j]?
  covered : ∀ (j : Nat) (p : Span), j < n → rs[j]? = some (some p) →
    ∃ (k : Nat) (q : Span), k < n ∧ rs'[k]? = some (some q) ∧ q.Covers p
  apart : ∀ (j k : Nat) (p q : Span), j < k → k < n → rs'[j]? = some (some p) →
    rs'[k]? = some (some q) → q.Apart p

theorem Reduced.zero (rs : List (Option Span)) : Reduced rs 0 rs :=
  ⟨rfl, fun _ _ h => h, fun _ _ => rfl, fun _ _ h => absurd h (Nat.not_lt_zero _),
    fun _ _ _ _ _ h => absurd h (Nat.not_lt_zero _)⟩

theorem Reduced.gap (h : Reduced rs i rs') (hr : rs[i]? = some none) : Reduced rs (i + 1) rs' := by
  have hi : rs'[i]? = some none := (h.ahead i (Nat.le_refl i)).trans hr
  refine ⟨h.length, h.kept, fun j hj => h.ahead j (by omega), fun j p hj hp => ?_,
    fun j k p q hjk hk hp hq => ?_⟩
  · have hne : j ≠ i := by rintro rfl; simp [hr] at hp
    obtain ⟨k, q, hk, hq⟩ := h.covered j p (by omega) hp
    exact ⟨k, q, by omega, hq⟩
  · have hne : k ≠ i := by rintro rfl; simp [hi] at hq
    exact h.apart j k p q hjk (by omega) hp hq

theorem Reduced.step (h : Reduced rs i rs') (hr : rs[i]? = some (some r))
    (hfit : ∀ x ∈ spansBefore rs' i, r.Covers x.2 ∨ r.Apart x.2) :
    Reduced rs (i + 1) (sweep r (spansBefore rs' i) rs') := by
  -- What is left is what was there and is not taken in.
  have hget : ∀ (j : Nat) (p : Span), (sweep r (spansBefore rs' i) rs')[j]? = some (some p) ↔
      rs'[j]? = some (some p) ∧ (j < i → ¬ r.Covers p) := by
    intro j p
    rw [getElem?_sweep]
    split
    · rename_i hany
      obtain ⟨⟨k, q⟩, hx, hkq⟩ := List.any_eq_true.1 hany
      obtain ⟨rfl, hc⟩ := of_decide_eq_true hkq
      obtain ⟨hk, hq⟩ := mem_spansBefore.1 hx
      rw [hq]
      constructor
      · intro h
        cases h
      · rintro ⟨h, hnot⟩
        cases h
        exact absurd hc (hnot hk)
    · rename_i hany
      refine ⟨fun hp => ⟨hp, fun hj hc => hany ?_⟩, And.left⟩
      exact List.any_eq_true.2 ⟨(j, p), mem_spansBefore.2 ⟨hj, hp⟩, by simpa using hc⟩
  have hi : rs'[i]? = some (some r) := (h.ahead i (Nat.le_refl i)).trans hr
  refine ⟨(length_sweep _).trans h.length, fun j p hp => h.kept j p ((hget j p).1 hp).1,
    fun j hj => ?_, fun j p hj hp => ?_, fun j k p q hjk hk hp hq => ?_⟩
  · rw [getElem?_sweep, if_neg, h.ahead j (by omega)]
    intro hany
    obtain ⟨⟨k, q⟩, hx, hc⟩ := List.any_eq_true.1 hany
    have hk := (mem_spansBefore.1 hx).1
    obtain ⟨rfl, -⟩ := of_decide_eq_true hc
    omega
  · rcases Nat.lt_succ_iff_lt_or_eq.1 hj with hj | rfl
    · obtain ⟨k, q, hk, hq, hqp⟩ := h.covered j p hj hp
      by_cases hc : r.Covers q
      · exact ⟨i, r, by omega, (hget i r).2 ⟨hi, fun h => absurd h (Nat.lt_irrefl i)⟩,
          Nat.le_trans hc.1 hqp.1, Nat.le_trans hqp.2 hc.2⟩
      · exact ⟨k, q, by omega, (hget k q).2 ⟨hq, fun _ => hc⟩, hqp⟩
    · obtain rfl : p = r := by simpa [hr] using hp.symm
      exact ⟨j, p, by omega, (hget j p).2 ⟨hi, fun h => absurd h (Nat.lt_irrefl j)⟩,
        Nat.le_refl _, Nat.le_refl _⟩
  · obtain ⟨hp', hpc⟩ := (hget j p).1 hp
    obtain ⟨hq', -⟩ := (hget k q).1 hq
    rcases Nat.lt_succ_iff_lt_or_eq.1 hk with hk | rfl
    · exact h.apart j k p q hjk hk hp' hq'
    · obtain rfl : q = r := by simpa [hi] using hq'.symm
      exact (hfit (j, p) (mem_spansBefore.2 ⟨hjk, hp'⟩)).resolve_left (hpc hjk)

theorem Deletes.reduceReplaces (h : s.Deletes rs) {n : Nat} (hn : n ≤ rs.length) :
    (Compatible rs n → ∃ s' rs', (List.range n).forM (reduceReplace "default") s = .ok ⟨⟩ s' ∧
      s'.stream = s.stream ∧ s'.Deletes rs' ∧ Reduced rs n rs') ∧
    (¬ Compatible rs n → ∃ s', (List.range n).forM (reduceReplace "default") s =
      .error .wrongType s') := by
  induction n with
  | zero =>
    refine ⟨fun _ => ⟨s, rs, rfl, rfl, h, .zero rs⟩, fun hc => absurd ?_ hc⟩
    exact fun _ _ _ _ _ hk => absurd hk (Nat.not_lt_zero _)
  | succ n ih =>
    obtain ⟨ihok, iherror⟩ := ih (by omega)
    rw [forM_range_succ]
    by_cases hc : Compatible rs n
    · obtain ⟨s₁, rs₁, hrun, hs₁, hd₁, hred⟩ := ihok hc
      obtain ⟨o, ho⟩ : ∃ o, rs[n]? = some o := ⟨_, List.getElem?_eq_getElem hn⟩
      have ho₁ := (hred.ahead n (Nat.le_refl n)).trans ho
      cases o with
      | none =>
        refine ⟨fun _ => ⟨s₁, rs₁, ?_, hs₁, hd₁, hred.gap ho⟩, fun hnot => absurd ?_ hnot⟩
        · rw [Run.bind_ok hrun, hd₁.reduceReplace_gap ho₁]
        · intro j k p q hjk hk hp hq
          have hne : k ≠ n := by rintro rfl; simp [ho] at hq
          exact hc j k p q hjk (by omega) hp hq
      | some r =>
        by_cases hfit : ∀ x ∈ spansBefore rs₁ n, r.Covers x.2 ∨ r.Apart x.2
        · obtain ⟨s', habsorb, hs', hd'⟩ := absorbReplaces_ok (i := n) hd₁ hfit
          refine ⟨fun _ => ⟨s', _, ?_, hs'.trans hs₁, hd', hred.step ho hfit⟩,
            fun hnot => absurd ?_ hnot⟩
          · rw [Run.bind_ok hrun, hd₁.reduceReplace_eq ho₁, habsorb]
          · intro j k p q hjk hk hp hq
            rcases Nat.lt_succ_iff_lt_or_eq.1 hk with hk | rfl
            · exact hc j k p q hjk hk hp hq
            · -- The range that is left of `p` takes it in, so `r` fits `p` as it fits that range.
              obtain rfl : q = r := by simpa [ho] using hq.symm
              obtain ⟨m, p', hm, hp', hcov⟩ := hred.covered j p hjk hp
              have := hfit (m, p') (mem_spansBefore.2 ⟨hm, hp'⟩)
              simp only [Span.Covers, Span.Apart] at this hcov ⊢
              omega
        · push Not at hfit
          obtain ⟨⟨m, p⟩, hx, hnc, hna⟩ := hfit
          obtain ⟨s', herror⟩ := absorbReplaces_error (i := n) hd₁ ⟨_, hx, hnc, hna⟩
          refine ⟨fun hcomp => ?_, fun _ => ⟨s', ?_⟩⟩
          · obtain ⟨hm, hp⟩ := mem_spansBefore.1 hx
            rcases hcomp m n p r hm (Nat.lt_succ_self n) (hred.kept m p hp) ho with h | h
            · exact absurd h hnc
            · exact absurd h hna
          · rw [Run.bind_ok hrun, hd₁.reduceReplace_eq ho₁, herror]
    · obtain ⟨s', hrun⟩ := iherror hc
      refine ⟨fun hcomp => absurd ?_ hc, fun _ => ⟨s', Run.bind_error hrun⟩⟩
      exact fun j k p q hjk hk => hcomp j k p q hjk (by omega)

def isCovered (rs : List (Option Span)) (i : Nat) : Bool :=
  rs.any fun o => o.any fun p => p.first ≤ i ∧ i ≤ p.last

theorem isCovered_iff : isCovered rs i = true ↔
    ∃ (j : Nat) (p : Span), rs[j]? = some (some p) ∧ p.first ≤ i ∧ i ≤ p.last := by
  simp only [isCovered, List.any_eq_true, Option.any_eq_true, decide_eq_true_eq]
  constructor
  · rintro ⟨_, ho, p, rfl, hp⟩
    obtain ⟨j, hj⟩ := List.mem_iff_getElem?.1 ho
    exact ⟨j, p, hj, hp⟩
  · rintro ⟨j, p, hj, hp⟩
    exact ⟨_, List.mem_of_getElem? hj, p, rfl, hp⟩

theorem Reduced.isCovered_eq (h : Reduced rs rs.length rs') : isCovered rs' = isCovered rs := by
  funext i
  rw [Bool.eq_iff_iff, isCovered_iff, isCovered_iff]
  constructor
  · rintro ⟨j, p, hj, hp⟩
    exact ⟨j, p, h.kept j p hj, hp⟩
  · rintro ⟨j, p, hj, hp⟩
    obtain ⟨hlt, -⟩ := List.getElem?_eq_some_iff.1 hj
    obtain ⟨k, q, -, hq, hcov⟩ := h.covered j p hlt hj
    exact ⟨k, q, hq, Nat.le_trans hcov.1 hp.1, Nat.le_trans hp.2 hcov.2⟩

def editsOf (rs : List (Option Span)) : List Edit :=
  (rs.map (Option.map Span.deletion)).filterMap id

theorem mem_editsOf {e : Edit} :
    e ∈ editsOf rs ↔ ∃ (j : Nat) (p : Span), rs[j]? = some (some p) ∧ e = p.deletion := by
  simp only [editsOf, List.mem_filterMap, List.mem_map, id_eq, exists_eq_right]
  constructor
  · rintro ⟨_, ho, he⟩
    obtain ⟨p, rfl, rfl⟩ := Option.map_eq_some_iff.1 he
    obtain ⟨j, hj⟩ := List.mem_iff_getElem?.1 ho
    exact ⟨j, p, hj, rfl⟩
  · rintro ⟨j, p, hj, rfl⟩
    exact ⟨_, List.mem_of_getElem? hj, rfl⟩

def AllValid (T : Tape) (rs : List (Option Span)) : Prop :=
  ∀ (j : Nat) (p : Span), rs[j]? = some (some p) → p.Valid T

def leftAt (T : Tape) (rs : List (Option Span)) (i : Nat) : String :=
  if isCovered rs i then "" else T.word i

theorem lays_deletions (hv : AllValid T rs)
    (hapart : ∀ (j k : Nat) (p q : Span), j < k → rs[j]? = some (some p) → rs[k]? = some (some q) →
      q.Apart p) :
    ((editsOf rs).map Edit.index).Nodup ∧
      Lays T (tabled (editsOf rs)) (leftAt T rs)
        fun i => ∀ (j : Nat) (p : Span), rs[j]? = some (some p) → p.first < i → p.last < i := by
  have hsym : ∀ (j k : Nat) (p q : Span), j ≠ k → rs[j]? = some (some p) → rs[k]? = some (some q) →
      q.last < p.first ∨ p.last < q.first := by
    intro j k p q hne hp hq
    rcases Nat.lt_or_gt_of_ne hne with h | h
    · exact (hapart j k p q h hp hq).symm
    · exact hapart k j q p h hq hp
  have hnd : ((editsOf rs).map Edit.index).Nodup := by
    rw [editsOf, nodup_index_iff]
    intro j k e e' hjk he he'
    simp only [List.getElem?_map, Option.map_eq_some_iff] at he he'
    obtain ⟨_, hp, p, rfl, rfl⟩ := he
    obtain ⟨_, hq, q, rfl, rfl⟩ := he'
    have := hsym j k p q (Nat.ne_of_lt hjk) hp hq
    have := (hv j p hp).ordered
    have := (hv k q hq).ordered
    simp only [Span.deletion]
    omega
  -- The deletion at a position is that of the range that starts there.
  have hedit : ∀ (i : Nat) (e : Edit),
      editAt (tabled (editsOf rs)) i = some e ↔
        ∃ (j : Nat) (p : Span), rs[j]? = some (some p) ∧ p.first = i ∧ e = p.deletion := by
    intro i e
    rw [editAt_tabled hnd, mem_editsOf]
    constructor
    · rintro ⟨⟨j, p, hj, rfl⟩, hi⟩
      exact ⟨j, p, hj, Int.ofNat.inj hi, rfl⟩
    · rintro ⟨j, p, hj, rfl, rfl⟩
      exact ⟨⟨j, p, hj, rfl⟩, rfl⟩
  refine ⟨hnd, fun _ _ _ h => absurd h (Nat.not_lt_zero _), fun i hi hstop => ?_⟩
  cases he : editAt (tabled (editsOf rs)) i with
  | none =>
    have hfree : ∀ (j : Nat) (p : Span), rs[j]? = some (some p) → p.first ≠ i := by
      intro j p hp hpi
      rw [(hedit i _).2 ⟨j, p, hp, hpi, rfl⟩] at he
      cases he
    refine .inl ⟨rfl, if_neg ?_, fun j p hp hlt => ?_⟩
    · rw [isCovered_iff]
      rintro ⟨j, p, hp, hle, hge⟩
      have := hstop j p hp (Nat.lt_of_le_of_ne hle (hfree j p hp))
      omega
    · have := hstop j p hp (by have := hfree j p hp; omega)
      omega
  | some e =>
    obtain ⟨j, p, hp, rfl, rfl⟩ := (hedit i e).1 he
    have hpv := hv j p hp
    have hlast : p.first + (p.last - p.first) = p.last := Nat.add_sub_cancel' hpv.ordered
    have hcov : ∀ k, p.first ≤ k → k ≤ p.last → leftAt T rs k = "" := fun k hk hk' =>
      if_pos (isCovered_iff.2 ⟨j, p, hp, hk, hk'⟩)
    refine .inr (.inr ⟨_, p.last - p.first, rfl, by rw [hlast]; rfl, by rw [hlast]; exact hpv.inside,
      hcov _ (Nat.le_refl _) hpv.ordered, fun k hk hk' => ⟨hcov k (by omega) (by omega), ?_⟩,
      fun k q hq hlt => ?_⟩)
    · rw [Option.eq_none_iff_forall_ne_some]
      intro e he
      obtain ⟨m, q, hq, rfl, -⟩ := (hedit k e).1 he
      have hne : j ≠ m := by
        rintro rfl
        rw [hp] at hq
        cases hq
        omega
      have := hsym j m p q hne hp hq
      have := (hv m q hq).ordered
      omega
    · by_cases hjk : j = k
      · subst hjk
        rw [hp] at hq
        cases hq
        omega
      · have := hsym j k p q hjk hp hq
        have := (hv k q hq).ordered
        omega

theorem Deletes.defaultText_ok (h : s.Deletes rs) (hs : s.stream.Full T) (hT : T.Spelled)
    (hv : AllValid T rs) (hc : Compatible rs rs.length) :
    ∃ s' rs', defaultText s = .ok (joined (leftAt T rs) 0 (T.last + 1)) s' ∧ s'.stream = s.stream ∧
      s'.Deletes rs' ∧ AllValid T rs' ∧ Compatible rs' rs'.length ∧ isCovered rs' = isCovered rs := by
  obtain ⟨s', rs', hrun, hs', hd', hred⟩ := (h.reduceReplaces (Nat.le_refl _)).1 hc
  have hv' : AllValid T rs' := fun j p hp => hv j p (hred.kept j p hp)
  have hapart : ∀ (j k : Nat) (p q : Span), j < k → rs'[j]? = some (some p) →
      rs'[k]? = some (some q) → q.Apart p := by
    intro j k p q hjk hp hq
    obtain ⟨hk, -⟩ := List.getElem?_eq_some_iff.1 hq
    exact hred.apart j k p q hjk (hred.length ▸ hk) hp hq
  have hleft : leftAt T rs' = leftAt T rs := by
    funext i
    rw [leftAt, hred.isCovered_eq, leftAt]
  refine ⟨s', rs', ?_, hs', hd', hv', fun j k p q hjk _ hp hq => .inr (hapart j k p q hjk hp hq),
    hred.isCovered_eq⟩
  by_cases hempty : s.listing = []
  · have hnil : rs = [] := by simpa [hempty] using h.symm
    subst hnil
    cases hrun
    exact defaultText_nil hs hT hempty
  · obtain ⟨hnd, hlays⟩ := lays_deletions hv' hapart
    rw [hleft] at hlays
    have hreduce : reduce "default" s =
        .ok (tabled (editsOf rs')) s' := by
      have hinserts : ∀ n, (List.range n).forM (reduceInsert "default") s' = .ok ⟨⟩ s' := by
        intro n
        induction n with
        | zero => rfl
        | succ n ih => rw [forM_range_succ, Run.bind_ok ih, hd'.reduceInsert_eq]
      rw [reduce, Run.get_bind, h.size_eq, Run.bind_ok hrun, Run.bind_ok (hinserts _), Run.get_bind,
        show (s'.program "default").toList = _ from hd', ← editsOf, onePerIndex_eq, if_pos hnd]
      rfl
    have hplace : ∀ x ∈ tabled (editsOf rs'), 0 ≤ x.1 ∧ x.1 ≤ T.last := by
      intro x hx
      obtain ⟨e, he, rfl⟩ := List.mem_map.1 hx
      obtain ⟨j, p, hj, rfl⟩ := mem_editsOf.1 he
      have := (hv' j p hj).ordered
      have := (hv' j p hj).inside
      simp only [Span.deletion]
      omega
    have hend : onwards (tabled (editsOf rs')) (T.last + 1) = [] := by
      rw [onwards, List.filter_eq_nil_iff]
      intro x hx
      have := (hplace x hx).2
      rw [decide_eq_true_eq]
      omega
    have htext := defaultText_eq hs hT hempty hreduce hs' hlays (fun x hx => (hplace x hx).1)
      (by rw [hend]; exact fun x hx => absurd hx List.not_mem_nil)
    rw [htext, hend, List.map_nil, String.join_nil, String.append_empty]

theorem Deletes.defaultText_error (h : s.Deletes rs)
    (hc : ¬ Compatible rs rs.length) : ∃ s', defaultText s = .error .wrongType s' := by
  obtain ⟨s', hrun⟩ := (h.reduceReplaces (Nat.le_refl _)).2 hc
  have hempty : (s.program "default").isEmpty = false := by
    rw [Array.isEmpty_eq_false_iff]
    intro he
    have hlength : rs.length = 0 := by rw [← h.size_eq, he]; rfl
    exact hc fun j k p q _ hk => absurd hk (by omega)
  have hreduce : reduce "default" s = .error .wrongType s' := by
    rw [reduce, Run.get_bind, h.size_eq, Run.bind_error hrun]
  refine ⟨s', ?_⟩
  rw [defaultText, Run.get_bind, TokenEdits.text, Run.get_bind, Run.get_bind, hempty]
  exact Run.bind_error hreduce

/-- Each range takes in or keeps clear of every earlier one. -/
def Fitting (spans : List Span) : Prop := spans.Pairwise fun p q => q.Covers p ∨ q.Apart p

theorem fitting_iff {spans : List Span} :
    Fitting spans ↔ Compatible (spans.map some) (spans.map some).length := by
  rw [Fitting, List.pairwise_iff_getElem]
  simp only [Compatible, List.length_map, List.getElem?_map, Option.map_eq_some_iff,
    Option.some.injEq, exists_eq_right, List.getElem?_eq_some_iff]
  grind

theorem Deletes.perform (h : s.Deletes rs) (hs : s.stream.Full T) {spans : List Span}
    (hv : ∀ p ∈ spans, p.Valid T) :
    ∃ s', spans.forM Span.perform s = .ok ⟨⟩ s' ∧ s'.stream = s.stream ∧
      s'.Deletes (rs ++ spans.map some) := by
  induction spans generalizing s rs with
  | nil => exact ⟨s, rfl, rfl, by simpa using h⟩
  | cons p spans ih =>
    have hp := hv p List.mem_cons_self
    have hordered := hp.ordered
    have hinside := hp.inside
    have hperform : p.perform s = .ok ⟨⟩ (s.setProgram "default"
        ((s.program "default").push (some p.deletion))) := by
      rw [Span.perform, delete, replace, Run.get_bind, hs.size_eq, if_neg (by omega)]
      rfl
    have hd : Deletes (s.setProgram "default" ((s.program "default").push (some p.deletion)))
        (rs ++ [some p]) := by
      rw [Deletes, listing_setProgram, Array.toList_push, List.map_append]
      exact congrArg (· ++ _) h
    obtain ⟨s', hrun, hs', hd'⟩ := ih hd hs fun q hq => hv q (List.mem_cons_of_mem p hq)
    refine ⟨s', ?_, hs', by simpa using hd'⟩
    rw [List.forM, Run.bind_ok hperform, hrun]

def remaining (T : Tape) (spans : List Span) : String :=
  String.join (((List.range T.last).filter fun i => !spans.any fun p => p.first ≤ i ∧ i ≤ p.last).map
    T.word)

theorem joined_leftAt (spans : List Span) :
    joined (leftAt T (spans.map some)) 0 (T.last + 1) = remaining T spans := by
  have hend : leftAt T (spans.map some) T.last = "" := by simp [leftAt, Tape.word]
  have hskip : ∀ l : List Nat, String.join (l.map (leftAt T (spans.map some))) =
      String.join ((l.filter fun i => !spans.any fun p => p.first ≤ i ∧ i ≤ p.last).map T.word) := by
    intro l
    induction l with
    | nil => rfl
    | cons i l ih =>
      have hcov : isCovered (spans.map some) i = spans.any fun p => p.first ≤ i ∧ i ≤ p.last := by
        rw [isCovered, List.any_map]
        rfl
      rw [List.map_cons, String.join_cons, ih, leftAt, hcov, List.filter_cons]
      cases spans.any fun p => p.first ≤ i ∧ i ≤ p.last <;> simp
  rw [joined, ← List.range_eq_range', List.range_succ, List.map_append, String.join_append, hskip]
  simp [hend, remaining]

def deleteThenText (spans : List Span) : EditM (String × String) := do
  spans.forM Span.perform
  let first ← defaultText
  let second ← defaultText
  return (first, second)

/-- Deletions give the text of the tokens in no range, both times, exactly if each takes in or keeps
clear of every earlier one. Otherwise they are broken off. -/
theorem deleteThenText_iff (T : Tape) (hT : T.Spelled) {stream : TokenStream} (hs : stream.Full T)
    {spans : List Span} (hv : ∀ p ∈ spans, p.Valid T) :
    ((∃ s', deleteThenText spans { stream } =
        .ok (remaining T spans, remaining T spans) s') ↔ Fitting spans) ∧
      (¬ Fitting spans → ∃ s', deleteThenText spans { stream } = .error .wrongType s') := by
  have hnew : Deletes { stream } [] := rfl
  obtain ⟨s₁, hrun, hs₁, hd₁⟩ := hnew.perform hs hv
  rw [List.nil_append] at hd₁
  have hfull : s₁.stream.Full T := hs₁ ▸ hs
  have hvalid : AllValid T (spans.map some) := by
    intro j p hp
    obtain ⟨q, hq, he⟩ := List.mem_map.1 (List.mem_of_getElem? hp)
    exact hv p (Option.some.inj he ▸ hq)
  have hok : Fitting spans → ∃ s', deleteThenText spans { stream } =
      .ok (remaining T spans, remaining T spans) s' := by
    intro hfit
    obtain ⟨s₂, rs₂, htext, hs₂, hd₂, hv₂, hc₂, hcov⟩ :=
      hd₁.defaultText_ok hfull hT hvalid (fitting_iff.1 hfit)
    obtain ⟨s₃, -, htext₃, -⟩ := hd₂.defaultText_ok (hs₂ ▸ hfull) hT hv₂ hc₂
    have hleft : leftAt T rs₂ = leftAt T (spans.map some) := by
      funext i
      rw [leftAt, hcov, leftAt]
    rw [hleft, joined_leftAt] at htext₃
    rw [joined_leftAt] at htext
    refine ⟨s₃, ?_⟩
    rw [deleteThenText, Run.bind_ok hrun, Run.bind_ok htext, Run.bind_ok htext₃]
    rfl
  have herror : ¬ Fitting spans → ∃ s', deleteThenText spans { stream } = .error .wrongType s' := by
    intro hfit
    obtain ⟨s', htext⟩ := hd₁.defaultText_error fun hc => hfit (fitting_iff.2 hc)
    exact ⟨s', by rw [deleteThenText, Run.bind_ok hrun, Run.bind_error htext]⟩
  refine ⟨⟨fun h => ?_, hok⟩, herror⟩
  by_contra hfit
  obtain ⟨s', h⟩ := h
  obtain ⟨s'', h'⟩ := herror hfit
  rw [h] at h'
  cases h'

/-- A deletion that takes in an earlier one. -/
theorem deleteThenText_iff_nested :
    ∃ s', deleteThenText [⟨1, 1⟩, ⟨0, 1⟩] { stream := lettersStream } = .ok ("c", "c") s' := by
  have hleft : remaining lettersTape [⟨1, 1⟩, ⟨0, 1⟩] = "c" := by decide +kernel
  have hvalid : ∀ p ∈ [(⟨1, 1⟩ : Span), ⟨0, 1⟩], p.Valid lettersTape := by
    simp only [List.mem_cons, List.not_mem_nil, or_false]
    rintro p (rfl | rfl) <;> exact ⟨by decide, by decide⟩
  have h := (deleteThenText_iff lettersTape lettersTape_spelled lettersStream_full hvalid).1.2 (by
    simp [Fitting, Span.Covers])
  rwa [hleft] at h

/-- Two deletions that overlap in one token leave nothing of three tokens, but are broken off. -/
theorem deleteThenText_overlapping :
    remaining lettersTape [⟨0, 1⟩, ⟨1, 2⟩] = "" ∧
      ∃ s', deleteThenText [⟨0, 1⟩, ⟨1, 2⟩] { stream := lettersStream } = .error .wrongType s' :=
  ⟨by decide +kernel, _, rfl⟩

end TokenEdits

end Throbac
