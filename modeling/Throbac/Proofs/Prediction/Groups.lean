import Mathlib.Data.List.Sort
import Throbac.Prediction.Predict

/-!
# Groups of alternatives

The alternatives of a set are grouped by the state and the stacks that they share. The groups hold the
alternatives of the set and no others, none of them is empty, and where all configurations share one key
there is one group.
-/
namespace Throbac

namespace ConfigSet

theorem mem_eraseRepsBy_loop {a x : Int} {xs acc : List Int} :
    x ∈ List.eraseRepsBy.loop (· == ·) a xs acc ↔ x ∈ acc ∨ x = a ∨ x ∈ xs := by
  induction xs generalizing a acc with
  | nil => simp [List.eraseRepsBy.loop, or_comm]
  | cons y ys ih =>
    rw [List.eraseRepsBy.loop]
    cases hay : a == y with
    | true =>
      obtain rfl := beq_iff_eq.1 hay
      simp only [ih, List.mem_cons]
      tauto
    | false =>
      simp only [ih, List.mem_cons]
      tauto

theorem mem_sorted {x : Int} {xs : List Int} : x ∈ sorted xs ↔ x ∈ xs := by
  rw [sorted, List.eraseReps, ← @Sequence.mem_sortBy _ (fun a b => decide (a ≤ b)) x xs]
  cases Sequence.sortBy (fun a b => decide (a ≤ b)) xs with
  | nil => simp [List.eraseRepsBy]
  | cons a as => simp [List.eraseRepsBy, mem_eraseRepsBy_loop]

theorem headD_sorted_mem {xs : List Int} (h : xs ≠ []) (d : Int) : (sorted xs).headD d ∈ xs := by
  cases hs : sorted xs with
  | nil =>
    obtain ⟨x, hx⟩ := List.exists_mem_of_ne_nil xs h
    rw [← mem_sorted, hs] at hx
    cases hx
  | cons a as =>
    rw [← mem_sorted, hs]
    exact List.mem_cons_self

/-! ## Groups by key -/

section

variable {K : Type} {alike : K → K → Bool}

/-- The groups hold the alternatives of a list and no others, and none of them is empty. -/
structure Grouped (alts : List Int) (groups : List (K × List Int)) : Prop where
  all : ∀ i ∈ alts, ∃ g ∈ groups, i ∈ g.2
  only : ∀ g ∈ groups, ∀ i ∈ g.2, i ∈ alts
  nonempty : ∀ g ∈ groups, g.2 ≠ []

theorem mem_addAlt {k : K} {alt : Int} {groups : List (K × List Int)} {g : K × List Int}
    (h : g ∈ addAlt alike k alt groups) :
    g ∈ groups ∨ g = (k, [alt]) ∨ ∃ alts, (g.1, alts) ∈ groups ∧ g.2 = sorted (alt :: alts) := by
  induction groups with
  | nil => exact .inr (.inl (List.mem_singleton.1 h))
  | cons x rest ih =>
    obtain ⟨k', alts⟩ := x
    rw [addAlt] at h
    split at h
    · rcases List.mem_cons.1 h with rfl | h
      · exact .inr (.inr ⟨alts, List.mem_cons_self, rfl⟩)
      · exact .inl (List.mem_cons_of_mem _ h)
    · rcases List.mem_cons.1 h with rfl | h
      · exact .inl List.mem_cons_self
      · rcases ih h with h | h | ⟨alts', h, hg⟩
        · exact .inl (List.mem_cons_of_mem _ h)
        · exact .inr (.inl h)
        · exact .inr (.inr ⟨alts', List.mem_cons_of_mem _ h, hg⟩)

theorem addAlt_keeps {k : K} {alt : Int} {groups : List (K × List Int)} {g : K × List Int} (h : g ∈ groups) :
    ∃ g' ∈ addAlt alike k alt groups, ∀ i ∈ g.2, i ∈ g'.2 := by
  induction groups with
  | nil => cases h
  | cons x rest ih =>
    obtain ⟨k', alts⟩ := x
    rw [addAlt]
    split
    · rcases List.mem_cons.1 h with rfl | h
      · exact ⟨_, List.mem_cons_self, fun i hi => mem_sorted.2 (List.mem_cons_of_mem _ hi)⟩
      · exact ⟨g, List.mem_cons_of_mem _ h, fun _ hi => hi⟩
    · rcases List.mem_cons.1 h with rfl | h
      · exact ⟨_, List.mem_cons_self, fun _ hi => hi⟩
      · obtain ⟨g', hg', hsame⟩ := ih h
        exact ⟨g', List.mem_cons_of_mem _ hg', hsame⟩

theorem addAlt_adds (k : K) (alt : Int) (groups : List (K × List Int)) :
    ∃ g ∈ addAlt alike k alt groups, alt ∈ g.2 := by
  induction groups with
  | nil => exact ⟨(k, [alt]), List.mem_cons_self, List.mem_cons_self⟩
  | cons x rest ih =>
    obtain ⟨k', alts⟩ := x
    rw [addAlt]
    split
    · exact ⟨_, List.mem_cons_self, mem_sorted.2 List.mem_cons_self⟩
    · obtain ⟨g, hg, hadds⟩ := ih
      exact ⟨g, List.mem_cons_of_mem _ hg, hadds⟩

theorem Grouped.add {alts : List Int} {groups : List (K × List Int)} (h : Grouped alts groups) (k : K) (alt : Int) :
    Grouped (alts ++ [alt]) (addAlt alike k alt groups) := by
  constructor
  · intro i hi
    rcases List.mem_append.1 hi with hi | hi
    · obtain ⟨g, hg, hi⟩ := h.all i hi
      obtain ⟨g', hg', hmem⟩ := @addAlt_keeps K alike k alt _ _ hg
      exact ⟨g', hg', hmem _ hi⟩
    · obtain rfl := List.mem_singleton.1 hi
      exact addAlt_adds k i groups
  · intro g hg i hi
    rcases mem_addAlt hg with hg | rfl | ⟨alts', hg, hsorted⟩
    · exact List.mem_append_left _ (h.only g hg i hi)
    · exact List.mem_append_right _ hi
    · rw [hsorted, mem_sorted] at hi
      rcases List.mem_cons.1 hi with rfl | hi
      · exact List.mem_append_right _ List.mem_cons_self
      · exact List.mem_append_left _ (h.only _ hg i hi)
  · intro g hg
    rcases mem_addAlt hg with hg | rfl | ⟨alts', hg, hsorted⟩
    · exact h.nonempty g hg
    · simp
    · have : alt ∈ g.2 := by
        rw [hsorted]
        exact mem_sorted.2 List.mem_cons_self
      exact List.ne_nil_of_mem this

theorem grouped_foldl {α : Type} (key : α → K) (alt : α → Int) (xs : List α) :
    Grouped (xs.map alt) (xs.foldl (fun acc x => addAlt alike (key x) (alt x) acc) []) := by
  suffices h : ∀ (xs ys : List α) groups, Grouped (ys.map alt) groups →
      Grouped ((ys ++ xs).map alt) (xs.foldl (fun acc x => addAlt alike (key x) (alt x) acc) groups) from
    h xs [] [] ⟨by simp, by simp, by simp⟩
  intro xs
  induction xs with
  | nil =>
    intro ys groups h
    rwa [List.append_nil]
  | cons x xs ih =>
    intro ys groups h
    rw [List.foldl_cons, List.append_cons]
    refine ih (ys ++ [x]) _ ?_
    rw [List.map_append]
    exact h.add (key x) (alt x)

theorem length_foldl_addAlt_le {α : Type} (key : α → K) (alt : α → Int) (xs : List α)
    (h : ∀ x ∈ xs, ∀ y ∈ xs, alike (key x) (key y) = true) :
    (xs.foldl (fun acc x => addAlt alike (key x) (alt x) acc) []).length ≤ 1 := by
  suffices hloop : ∀ ys : List α, (∀ y ∈ ys, y ∈ xs) → ∀ groups : List (K × List Int), groups.length ≤ 1 →
      (∀ g ∈ groups, ∃ x ∈ xs, g.1 = key x) →
      (ys.foldl (fun acc x => addAlt alike (key x) (alt x) acc) groups).length ≤ 1 from
    hloop xs (fun _ hy => hy) [] (by simp) (by simp)
  intro ys
  induction ys with
  | nil => exact fun _ groups hlength _ => hlength
  | cons y ys ih =>
    intro hys groups hlength hkeys
    have hy := hys y List.mem_cons_self
    refine ih (fun z hz => hys z (List.mem_cons_of_mem _ hz)) _ ?_ ?_
    · match groups, hlength with
      | [], _ => simp [addAlt]
      | [(k, alts)], _ =>
        obtain ⟨x, hx, rfl⟩ := hkeys (k, alts) List.mem_cons_self
        simp [addAlt, h y hy x hx]
    · intro g hg
      rcases mem_addAlt hg with hg | rfl | ⟨alts, hg, -⟩
      · exact hkeys g hg
      · exact ⟨y, hy, rfl⟩
      · exact hkeys (g.1, alts) hg

end

variable {s : ConfigSet} {g : List Int} {i : Int}

theorem grouped_configs (s : ConfigSet) : ∃ groups : List ((Nat × StackContext) × List Int),
    s.conflictGroups = groups.map Prod.snd ∧ Grouped (s.configs.toList.map Config.alt) groups :=
  ⟨_, rfl, grouped_foldl (fun c : Config => (c.state, c.context)) Config.alt s.configs.toList⟩

theorem exists_group {c : Config} (hc : c ∈ s.configs) : ∃ g ∈ s.conflictGroups, c.alt ∈ g := by
  obtain ⟨groups, hgroups, h⟩ := grouped_configs s
  obtain ⟨p, hp, hi⟩ := h.all _ (List.mem_map.2 ⟨c, Array.mem_toList_iff.2 hc, rfl⟩)
  exact ⟨p.2, hgroups ▸ List.mem_map.2 ⟨p, hp, rfl⟩, hi⟩

theorem exists_of_mem_group (hg : g ∈ s.conflictGroups) (hi : i ∈ g) : ∃ c ∈ s.configs, c.alt = i := by
  obtain ⟨groups, hgroups, h⟩ := grouped_configs s
  obtain ⟨p, hp, rfl⟩ := List.mem_map.1 (hgroups ▸ hg)
  obtain ⟨c, hc, heq⟩ := List.mem_map.1 (h.only p hp i hi)
  exact ⟨c, Array.mem_toList_iff.1 hc, heq⟩

theorem group_ne_nil (hg : g ∈ s.conflictGroups) : g ≠ [] := by
  obtain ⟨groups, hgroups, h⟩ := grouped_configs s
  obtain ⟨p, hp, rfl⟩ := List.mem_map.1 (hgroups ▸ hg)
  exact h.nonempty p hp

theorem mem_conflictGroups_flatten : i ∈ s.conflictGroups.flatten ↔ ∃ c ∈ s.configs, c.alt = i := by
  constructor
  · intro hi
    obtain ⟨g, hg, hi⟩ := List.mem_flatten.1 hi
    exact exists_of_mem_group hg hi
  · rintro ⟨c, hc, rfl⟩
    obtain ⟨g, hg, hi⟩ := exists_group hc
    exact List.mem_flatten.2 ⟨g, hg, hi⟩

theorem conflictGroups_length_le
    (h : ∀ c ∈ s.configs, ∀ d ∈ s.configs, c.state = d.state ∧ c.context = d.context) :
    s.conflictGroups.length ≤ 1 := by
  rw [conflictGroups, List.length_map]
  refine length_foldl_addAlt_le (fun c : Config => (c.state, c.context)) Config.alt _ fun c hc d hd => ?_
  obtain ⟨hstate, hcontext⟩ := h c (Array.mem_toList_iff.1 hc) d (Array.mem_toList_iff.1 hd)
  simp [hstate, hcontext, StackContext.alike]

end ConfigSet

namespace Conflict

variable {s : ConfigSet}

theorem singleViable_ok (h : s.configs ≠ #[]) : ∃ alt, singleViable s.conflictGroups = .ok alt ∧
    (alt ≠ 0 → ∃ c ∈ s.configs, c.alt = alt) := by
  have hmem : ∀ alt ∈ ConfigSet.sorted (s.conflictGroups.filterMap List.head?), ∃ c ∈ s.configs, c.alt = alt := by
    intro alt halt
    obtain ⟨g, hg, hhead⟩ := List.mem_filterMap.1 (ConfigSet.mem_sorted.1 halt)
    exact ConfigSet.exists_of_mem_group hg (List.mem_of_mem_head? hhead)
  rw [singleViable]
  split
  · next hnil =>
    obtain ⟨c, hc⟩ := Array.exists_mem_of_ne_empty _ h
    obtain ⟨g, hg, -⟩ := ConfigSet.exists_group hc
    obtain ⟨i, hi⟩ : ∃ i, g.head? = some i := by
      cases g with
      | nil => exact absurd rfl (ConfigSet.group_ne_nil hg)
      | cons i _ => exact ⟨i, rfl⟩
    have := ConfigSet.mem_sorted.2 (List.mem_filterMap.2 ⟨g, hg, hi⟩)
    rw [hnil] at this
    cases this
  · next alt halt =>
    exact ⟨alt, rfl, fun _ => hmem alt (by rw [halt]; exact List.mem_singleton_self alt)⟩
  · exact ⟨0, rfl, fun h => absurd rfl h⟩

theorem singleViable_of_alike (h : s.configs ≠ #[]) (hpos : ∀ c ∈ s.configs, 1 ≤ c.alt)
    (halike : ∀ c ∈ s.configs, ∀ d ∈ s.configs, c.state = d.state ∧ c.context = d.context) :
    ∃ alt, singleViable s.conflictGroups = .ok alt ∧ alt ≠ 0 := by
  obtain ⟨c, hc⟩ := Array.exists_mem_of_ne_empty _ h
  obtain ⟨g, hg, -⟩ := ConfigSet.exists_group hc
  have hone : s.conflictGroups = [g] := by
    have := ConfigSet.conflictGroups_length_le halike
    match hgroups : s.conflictGroups with
    | [] => rw [hgroups] at hg; cases hg
    | [g'] =>
      rw [hgroups, List.mem_singleton] at hg
      rw [hg]
    | _ :: _ :: _ => rw [hgroups] at this; simp at this
  have hne := ConfigSet.group_ne_nil hg
  match g, hne with
  | i :: is, _ =>
    obtain ⟨c, hc, hi⟩ := ConfigSet.exists_of_mem_group hg List.mem_cons_self
    have hsorted : ConfigSet.sorted [i] = [i] := rfl
    refine ⟨i, by simp [singleViable, hone, hsorted], ?_⟩
    have := hpos c hc
    omega

end Conflict

end Throbac
