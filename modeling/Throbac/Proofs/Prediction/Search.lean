import Mathlib.Algebra.Order.BigOperators.Ring.Finset
import Throbac.Proofs.Prediction.Steps

/-!
# Searches in good order

What holds of a search between any two steps, and how often it can still fall out of a rule: a
configuration that was met twice counts as met from then on.
-/
namespace Throbac

open StackContext (Proper Known)

namespace Prediction

/-- A search whose set is in order and whose visits are stored at places of their own. -/
structure Sound (size : Nat) (full : Bool) (Φ : Config → Prop) (s : Search) : Prop where
  fine : s.set.Fine size full Φ
  known : Known size (!full) s.cache
  placed : ∀ (j : Nat) v i, s.visits[j]? = some v → v.place = some i →
    ∃ e, s.set.configs[i]? = some e ∧ v.config.sharesPlace e = true
  once : ∀ (j k : Nat) v w i, s.visits[j]? = some v → s.visits[k]? = some w → v.place = some i →
    w.place = some i → j = k

def met (s : Search) : List Config := s.visits.toList.map Visit.config

/-- The search went on: no visit was forgotten. -/
def Onward (s s' : Search) : Prop := ∃ more, met s' = met s ++ more

theorem Onward.refl (s : Search) : Onward s s := ⟨[], by simp⟩

theorem Onward.trans {s s' s'' : Search} (h : Onward s s') (h' : Onward s' s'') : Onward s s'' := by
  obtain ⟨more, hmore⟩ := h
  obtain ⟨more', hmore'⟩ := h'
  exact ⟨more ++ more', by rw [hmore', hmore, List.append_assoc]⟩

theorem Onward.of_met {s s' : Search} (h : met s' = met s) : Onward s s' := ⟨[], by rw [h, List.append_nil]⟩

variable {size : Nat} {full : Bool} {Φ : Config → Prop} {s s' : Search} {c next : Config}

/-! ## Meeting a configuration again -/

def timesMet (s : Search) (c : Config) : Nat := (met s).countP fun d => d.same c

theorem same_iff {a b : Config} : a.same b = true ↔
    a.state = b.state ∧ a.alt = b.alt ∧ a.context = b.context ∧ a.guard = b.guard ∧ a.spared = b.spared := by
  simp [Config.same, and_assoc]

theorem timesMet_congr {a b : Config} (h : a.same b = true) : timesMet s a = timesMet s b := by
  obtain ⟨hstate, halt, hcontext, hguard, hspared⟩ := same_iff.1 h
  refine List.countP_congr fun d _ => ?_
  rw [same_iff, same_iff, hstate, halt, hcontext, hguard, hspared]

theorem countP_le_one {α : Type} {P : α → Bool} {xs : List α}
    (h : ∀ (i j : Nat) x y, xs[i]? = some x → xs[j]? = some y → P x = true → P y = true → i = j) :
    xs.countP P ≤ 1 := by
  induction xs with
  | nil => simp
  | cons x xs ih =>
    have htail : xs.countP P ≤ 1 := by
      refine ih fun i j y z hi hj hy hz => ?_
      have := h (i + 1) (j + 1) y z (by simpa using hi) (by simpa using hj) hy hz
      omega
    by_cases hx : P x = true
    · have hnone : xs.countP P = 0 := by
        rw [List.countP_eq_zero]
        intro y hy hP
        obtain ⟨j, hj⟩ := List.mem_iff_getElem?.1 hy
        have := h 0 (j + 1) x y rfl (by simpa using hj) hx hP
        omega
      rw [List.countP_cons_of_pos hx, hnone]
    · rwa [List.countP_cons_of_neg hx]

/-- A configuration that was met twice counts as met. At most one of the two visits was stored, and
the other stands as it was. -/
theorem Sound.visited (h : Sound size full Φ s) (htwice : 2 ≤ timesMet s c) : s.visited c = true := by
  by_contra hnot
  have hplace : ∀ v ∈ s.visits.toList, v.config.same c = true → ∃ i, v.place = some i := by
    intro v hv hsame
    cases hplace : v.place with
    | some i => exact ⟨i, rfl⟩
    | none =>
      obtain ⟨hstate, halt, hcontext, hguard, -⟩ := same_iff.1 hsame
      have hshares := Config.sharesPlace_iff.2 ⟨hstate, halt, hguard⟩
      refine absurd ?_ hnot
      rw [Search.visited, Array.any_eq_true']
      exact ⟨v, Array.mem_toList_iff.1 hv, by simp [hplace, Search.present, hsame, hshares, hcontext]⟩
  have hone : s.visits.toList.countP (fun v => v.config.same c) ≤ 1 := by
    refine countP_le_one fun j k v w hj hk hv hw => ?_
    obtain ⟨i, hi⟩ := hplace v (List.mem_of_getElem? hj) hv
    obtain ⟨i', hi'⟩ := hplace w (List.mem_of_getElem? hk) hw
    rw [Array.getElem?_toList] at hj hk
    obtain ⟨e, he, hshare⟩ := h.placed j v i hj hi
    obtain ⟨e', he', hshare'⟩ := h.placed k w i' hk hi'
    obtain ⟨hs, ha, -, hg, -⟩ := same_iff.1 hv
    obtain ⟨hs', ha', -, hg', -⟩ := same_iff.1 hw
    have hee : e.sharesPlace e' = true := by
      rw [Config.sharesPlace_iff] at hshare hshare' ⊢
      exact ⟨(hshare.1.symm.trans hs).trans (hs'.symm.trans hshare'.1),
        (hshare.2.1.symm.trans ha).trans (ha'.symm.trans hshare'.2.1),
        (hshare.2.2.symm.trans hg).trans (hg'.symm.trans hshare'.2.2)⟩
    obtain rfl := h.fine.apart i i' e e' he he' hee
    exact h.once j k v w i hj hk hi hi'
  rw [timesMet, met, List.countP_map] at htwice
  exact absurd hone (Nat.not_le_of_lt htwice)

/-! ## Visiting and storing -/

theorem visit_ok (h : Sound size full Φ s) (c : Config) :
    ∃ s', visit c s = .ok s.visits.size s' ∧ Sound size full Φ s' ∧ met s' = met s ++ [c] ∧
      s'.visits[s.visits.size]? = some { config := c } := by
  have hmet : met { s with visits := s.visits.push { config := c } } = met s ++ [c] := by
    simp [met]
  have hold : ∀ {j : Nat} {v : Visit} {i : Nat}, (s.visits.push { config := c })[j]? = some v →
      v.place = some i → s.visits[j]? = some v := by
    intro j v i hj hi
    rw [Array.getElem?_push] at hj
    split at hj
    · rw [← Option.some.inj hj] at hi
      cases hi
    · exact hj
  refine ⟨_, rfl, ⟨h.fine, h.known, ?_, ?_⟩, hmet, by simp⟩
  · intro j v i hj hi
    exact h.placed j v i (hold hj hi) hi
  · intro j k v w i hj hk hi hi'
    exact h.once j k v w i (hold hj hi) (hold hk hi') hi hi'

/-- The visit with the number is one of the configuration, which is not stored yet. -/
def Visiting (s : Search) (c : Config) (visit : Option Nat) : Prop :=
  ∀ v, visit = some v → ∃ w : Visit, s.visits[v]? = some w ∧ w.config = c ∧ w.place = none

theorem Sound.withSet (h : Sound size full Φ s) {set : ConfigSet} {cache : Option MergeCache}
    (hfine : set.Fine size full Φ) (hknown : Known size (!full) cache) (hgrows : s.set.Grows set) :
    Sound size full Φ { s with set, cache } := by
  refine ⟨hfine, hknown, ?_, h.once⟩
  intro j v i hj hi
  obtain ⟨e, he, hshare⟩ := h.placed j v i hj hi
  obtain ⟨e', he', hshare'⟩ := hgrows i e he
  rw [Config.sharesPlace_iff] at hshare hshare'
  exact ⟨e', he', Config.sharesPlace_iff.2 ⟨hshare.1.trans hshare'.1, hshare.2.1.trans hshare'.2.1,
    hshare.2.2.trans hshare'.2.2⟩⟩

theorem Sound.place (h : Sound size full Φ s) {v i : Nat} {w : Visit} (hw : s.visits[v]? = some w)
    (hi : s.set.configs[i]? = some w.config)
    (hfresh : ∀ (j : Nat) x, s.visits[j]? = some x → x.place ≠ some i) :
    Sound size full Φ { s with visits := s.visits.modify v ({ · with place := some i }) } ∧
      met { s with visits := s.visits.modify v ({ · with place := some i }) } = met s := by
  have hget : ∀ {j : Nat} {x : Visit} {k : Nat},
      (s.visits.modify v ({ · with place := some i }))[j]? = some x → x.place = some k →
        (j = v ∧ k = i ∧ x.config = w.config) ∨ (s.visits[j]? = some x) := by
    intro j x k hj hk
    rw [Array.getElem?_modify] at hj
    split at hj
    · next hv =>
      subst hv
      rw [hw] at hj
      obtain rfl := Option.some.inj hj
      exact .inl ⟨rfl, (Option.some.inj hk).symm, rfl⟩
    · exact .inr hj
  refine ⟨⟨h.fine, h.known, ?_, ?_⟩, ?_⟩
  · intro j x k hj hk
    rcases hget hj hk with ⟨rfl, rfl, hx⟩ | hj
    · exact ⟨w.config, hi, Config.sharesPlace_iff.2 (by rw [hx]; exact ⟨rfl, rfl, rfl⟩)⟩
    · exact h.placed j x k hj hk
  · intro j k x y n hj hk hx hy
    rcases hget hj hx with ⟨rfl, rfl, -⟩ | hj' <;> rcases hget hk hy with ⟨rfl, hn, -⟩ | hk'
    · rfl
    · exact absurd hy (hfresh k y hk')
    · exact absurd (hn ▸ hx) (hfresh j x hj')
    · exact h.once j k x y n hj' hk' hx hy
  · apply List.ext_getElem?
    intro j
    simp only [met, Array.toList_modify, List.getElem?_map, List.getElem?_modify]
    split
    · cases s.visits.toList[j]? <;> rfl
    · simp

theorem store_ok (hsize : (size : Int) ≤ StackContext.bottom) (hΦ : Mergeable size (!full) Φ)
    (h : Sound size full Φ s) (hc : Φ c) (hproper : Proper size (!full) c.context) {visit : Option Nat}
    (hvisit : Visiting s c visit) :
    ∃ place s', store c visit s = .ok place s' ∧ Sound size full Φ s' ∧ Onward s s' ∧
      ∀ i, place = some i → s'.set.configs[i]? = some c := by
  obtain ⟨i, set, cache, hadd, hknown, hfine, hgrows, hnew⟩ :=
    ConfigSet.add_ok hsize hΦ h.fine hc hproper h.known
  have hsound := h.withSet hfine hknown hgrows
  have hon : onSet (ConfigSet.add c) s = .ok i { s with set, cache } := by
    rw [onSet, hadd]
  rw [store, Run.get_bind, Run.bind_ok hon]
  by_cases hi : i = s.set.size
  · rw [if_neg (not_not.2 hi)]
    obtain rfl := hnew hi
    have hget : ∀ j, some i = some j → (s.set.pushed c).configs[j]? = some c := by
      rintro _ ⟨⟩
      rw [hi]
      simp [ConfigSet.pushed, ConfigSet.size]
    cases visit with
    | none => exact ⟨some i, _, rfl, hsound, .of_met rfl, hget⟩
    | some v =>
      obtain ⟨w, hw, hconfig, -⟩ := hvisit v rfl
      have hfresh : ∀ (j : Nat) x, s.visits[j]? = some x → x.place ≠ some i := by
        intro j x hj hx
        obtain ⟨e, he, -⟩ := h.placed j x i hj hx
        have hlt := (Array.getElem?_eq_some_iff.1 he).1
        rw [hi] at hlt
        exact Nat.lt_irrefl _ hlt
      obtain ⟨hplaced, hmet⟩ := hsound.place hw (by rw [hconfig]; exact hget i rfl) hfresh
      exact ⟨some i, _, rfl, hplaced, .of_met hmet, hget⟩
  · rw [if_pos hi]
    exact ⟨none, _, rfl, hsound, .of_met rfl, fun j hj => by cases hj⟩

/-! ## How often a search can fall -/

/-- The configuration at a state under the empty stack. -/
def fallen (c : Config) (n : Nat) (spared : Bool) : Config :=
  { c with state := n, context := .empty, spared }

/-- How often a search can still fall to a state under the empty stack. -/
def visitsLeft (s : Search) (c : Config) (n : Nat) : Nat :=
  (2 - timesMet s (fallen c n false)) + (2 - timesMet s (fallen c n true))

/-- A bound on how often a search can still fall out of a rule. -/
def fallsLeft (size : Nat) (s : Search) (c : Config) : Nat :=
  ∑ n ∈ Finset.range size, visitsLeft s c n

theorem fallsLeft_le (size : Nat) (s : Search) (c : Config) : fallsLeft size s c ≤ 4 * size := by
  have hle : ∀ n ∈ Finset.range size, visitsLeft s c n ≤ 4 := by
    intro n _
    unfold visitsLeft
    omega
  have hsum := Finset.sum_le_card_nsmul (Finset.range size) (visitsLeft s c) 4 hle
  rw [Finset.card_range, nsmul_eq_mul, Nat.cast_id] at hsum
  exact Nat.le_trans hsum (by omega)

theorem timesMet_mono (h : Onward s s') (c : Config) : timesMet s c ≤ timesMet s' c := by
  obtain ⟨more, hmore⟩ := h
  rw [timesMet, timesMet, hmore, List.countP_append]
  exact Nat.le_add_right _ _

theorem visitsLeft_mono (h : Onward s s') (c : Config) (n : Nat) :
    visitsLeft s' c n ≤ visitsLeft s c n := by
  have hfalse := timesMet_mono h (fallen c n false)
  have htrue := timesMet_mono h (fallen c n true)
  unfold visitsLeft
  omega

theorem fallsLeft_mono (h : Onward s s') (c : Config) : fallsLeft size s' c ≤ fallsLeft size s c :=
  Finset.sum_le_sum fun n _ => visitsLeft_mono h c n

theorem fallsLeft_congr (size : Nat) (s : Search) {c d : Config} (halt : d.alt = c.alt)
    (hguard : d.guard = c.guard) : fallsLeft size s d = fallsLeft size s c := by
  have htimes : ∀ n b, timesMet s (fallen d n b) = timesMet s (fallen c n b) := by
    intro n b
    exact timesMet_congr (same_iff.2 ⟨rfl, halt, rfl, hguard, rfl⟩)
  simp only [fallsLeft, visitsLeft, htimes]

theorem fallsLeft_lt {d : Config} (h : Onward s s') (hstate : d.state < size) (hempty : d.context = .empty)
    (halt : d.alt = c.alt) (hguard : d.guard = c.guard) (hfew : timesMet s d < 2)
    (hmet : timesMet s d < timesMet s' d) : fallsLeft size s' c < fallsLeft size s c := by
  refine Finset.sum_lt_sum (fun n _ => visitsLeft_mono h c n) ⟨d.state, by simpa using hstate, ?_⟩
  have hnext : ∀ t, timesMet t d = timesMet t (fallen c d.state d.spared) := by
    intro t
    exact timesMet_congr (same_iff.2 ⟨rfl, halt, hempty, hguard, rfl⟩)
  have hfalse := timesMet_mono h (fallen c d.state false)
  have htrue := timesMet_mono h (fallen c d.state true)
  rw [hnext] at hfew hmet
  rw [hnext] at hmet
  unfold visitsLeft
  cases hspared : d.spared with
  | false =>
    rw [hspared] at hfew hmet
    omega
  | true =>
    rw [hspared] at hfew hmet
    omega

end Prediction

end Throbac
