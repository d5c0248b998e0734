import Mathlib.Data.List.Induction
import Throbac.Proofs.Lexing.Search

/-!
# Paths through a lexer network

A path slips and reads its way from one configuration to another; it spells the characters it reads.
The set a lexer holds after some characters consists of the configurations that wait at the end of a
path that spells them, ordered by the rules the paths began in.
-/
namespace Throbac

theorem Edge.isEpsilon_of_reads {e : Edge} {x lo hi : Int} (h : e.label.reads x lo hi = true) :
    e.isEpsilon = false := by
  unfold Edge.isEpsilon Label.isEpsilon
  cases hl : e.label <;> simp_all [Label.reads]

namespace Lexing

/-- A path from a configuration to another that spells a text. -/
inductive Path (net : Network) : LexConfig → List Char → LexConfig → Prop
  | refl (c : LexConfig) : Path net c [] c
  | slip {c d x : LexConfig} {w : List Char} : d ∈ slips net c → Path net d w x → Path net c w x
  | read {c d x : LexConfig} {a : Char} {w : List Char} :
    d ∈ reads net a.toNat c → Path net d w x → Path net c (a :: w) x

variable {net : Network} {rank : Nat → Nat}

namespace Path

theorem trans {c d x : LexConfig} {u v : List Char} (h : Path net c u d) (k : Path net d v x) :
    Path net c (u ++ v) x := by
  induction h with
  | refl => exact k
  | slip hm _ ih => exact .slip hm (ih k)
  | read hm _ ih => exact .read hm (ih k)

theorem unfold_iff {c x : LexConfig} {w : List Char} :
    Path net c w x ↔ (w = [] ∧ c = x) ∨ (∃ d ∈ slips net c, Path net d w x) ∨
      ∃ a v, w = a :: v ∧ ∃ d ∈ reads net a.toNat c, Path net d v x := by
  constructor
  · rintro (_ | ⟨hm, h⟩ | ⟨hm, h⟩)
    · exact .inl ⟨rfl, rfl⟩
    · exact .inr (.inl ⟨_, hm, h⟩)
    · exact .inr (.inr ⟨_, _, rfl, _, hm, h⟩)
  · rintro (⟨rfl, rfl⟩ | ⟨d, hm, h⟩ | ⟨a, v, rfl, d, hm, h⟩)
    · exact .refl c
    · exact .slip hm h
    · exact .read hm h

theorem sane (hp : Plain net rank) {c x : LexConfig} {w : List Char} (h : Path net c w x)
    (hc : Sane net c) : Sane net x := by
  induction h with
  | refl => exact hc
  | slip hm _ ih => exact ih (hp.sane_slips hc hm)
  | read hm _ ih => exact ih (sane_reads hc hm)

theorem alt_slips {c d : LexConfig} (h : d ∈ slips net c) : d.alt = c.alt := by
  unfold slips at h
  split at h
  · split at h
    · rw [List.mem_singleton.1 h]
    · simp at h
  · obtain ⟨e, _, hs⟩ := List.mem_filterMap.1 h
    unfold Lexing.slip at hs
    split at hs <;> cases hs <;> rfl

theorem alt_reads {t : Int} {c d : LexConfig} (h : d ∈ reads net t c) : d.alt = c.alt := by
  obtain ⟨e, _, rfl⟩ := List.mem_map.1 h
  rfl

theorem append_cons_iff {c x : LexConfig} {u v : List Char} {a : Char} :
    Path net c (u ++ a :: v) x ↔
      ∃ y d, Path net c u y ∧ d ∈ reads net a.toNat y ∧ Path net d v x := by
  constructor
  · intro h
    generalize hw : u ++ a :: v = w at h
    induction h generalizing u with
    | refl => simp at hw
    | slip hm _ ih =>
      obtain ⟨y, d, hy, hd, hx⟩ := ih hw
      exact ⟨y, d, .slip hm hy, hd, hx⟩
    | @read c d x b w hm hx ih =>
      cases u with
      | nil =>
        obtain ⟨rfl, rfl⟩ : a = b ∧ v = w := by simpa using hw
        exact ⟨c, d, .refl c, hm, hx⟩
      | cons b' u =>
        obtain ⟨rfl, hu⟩ : b' = b ∧ u ++ a :: v = w := by simpa using hw
        obtain ⟨y, d, hy, hd, hx⟩ := ih hu
        exact ⟨y, d, .read hm hy, hd, hx⟩
  · rintro ⟨y, d, hy, hd, hx⟩
    exact hy.trans (.read hd hx)

end Path

theorem mem_reach (hp : Plain net rank) {fuel : Nat} {c x : LexConfig} (hc : Sane net c)
    (hd : depth rank c < fuel) :
    x ∈ reach net fuel c ↔ Path net c [] x ∧ waits net x = true := by
  induction fuel generalizing c with
  | zero => omega
  | succ fuel ih =>
    have hstep : ∀ d ∈ slips net c,
        (x ∈ reach net fuel d ↔ Path net d [] x ∧ waits net x = true) := fun d hm =>
      ih (hp.sane_slips hc hm) (by have := hp.depth_slips hc hm; omega)
    rw [reach, List.mem_append, List.mem_flatMap]
    constructor
    · rintro (h | ⟨d, hm, h⟩)
      · split at h
        · rw [List.mem_singleton.1 h]
          exact ⟨.refl c, ‹_›⟩
        · simp at h
      · have h := (hstep d hm).1 h
        exact ⟨.slip hm h.1, h.2⟩
    · rintro ⟨h, hw⟩
      rcases Path.unfold_iff.1 h with ⟨_, rfl⟩ | ⟨d, hm, h⟩ | ⟨a, v, h, _⟩
      · exact .inl (by simp [hw])
      · exact .inr ⟨d, hm, (hstep d hm).2 ⟨h, hw⟩⟩
      · cases h

def after (net : Network) (n : Nat) (u : List Char) : LexConfigs :=
  u.foldl (fun s a => advanceSet net s a.toNat) (startSet net n)

theorem after_snoc (n : Nat) (u : List Char) (a : Char) :
    after net n (u ++ [a]) = advanceSet net (after net n u) a.toNat := by
  simp [after]

theorem waits_of_reads (hp : Plain net rank) {t : Int} {c d : LexConfig}
    (h : d ∈ reads net t c) : waits net c = true := by
  obtain ⟨e, he, _⟩ := List.mem_map.1 h
  obtain ⟨hm, hr⟩ := List.mem_filter.1 he
  obtain ⟨h1, h2⟩ := hp.reading c.state e (Array.mem_toList_iff.1 hm) (Edge.isEpsilon_of_reads hr)
  simp [waits, h1, h2]

theorem Path.exists_waits (hp : Plain net rank) {c x : LexConfig} {u v : List Char}
    (h : Path net c (u ++ v) x) (hx : waits net x = true) :
    ∃ y, waits net y = true ∧ Path net c u y := by
  cases v with
  | nil => exact ⟨x, hx, by simpa using h⟩
  | cons a v =>
    obtain ⟨y, d, hy, hd, _⟩ := Path.append_cons_iff.1 h
    exact ⟨y, waits_of_reads hp hd, hy⟩

theorem mem_after (hp : Plain net rank) {n : Nat} {u : List Char} {x : LexConfig} :
    x ∈ (after net n u).configs ↔ waits net x = true ∧ ∃ c ∈ origins net n, Path net c u x := by
  induction u using List.reverseRecOn generalizing x with
  | nil =>
    simp only [after, List.foldl_nil, startSet, LexConfigs.mem_addAll, List.mem_flatMap]
    constructor
    · rintro (h | ⟨c, hc, h⟩)
      · simp at h
      · have h := (mem_reach hp (sane_origins hc) (depth_lt_bound hp (sane_origins hc))).1 h
        exact ⟨h.2, c, hc, h.1⟩
    · rintro ⟨hw, c, hc, h⟩
      have hs := sane_origins hc
      exact .inr ⟨c, hc, (mem_reach hp hs (depth_lt_bound hp hs)).2 ⟨h, hw⟩⟩
  | append_singleton u a ih =>
    simp only [after_snoc, advanceSet, LexConfigs.mem_addAll, List.mem_flatMap,
      Array.mem_toList_iff]
    constructor
    · rintro (h | ⟨y, hy, d, hd, h⟩)
      · simp at h
      · obtain ⟨_, c, hc, hy⟩ := ih.1 hy
        have hs := sane_reads (hy.sane hp (sane_origins hc)) hd
        have h := (mem_reach hp hs (depth_lt_bound hp hs)).1 h
        exact ⟨h.2, c, hc, Path.append_cons_iff.2 ⟨y, d, hy, hd, h.1⟩⟩
    · rintro ⟨hw, c, hc, h⟩
      obtain ⟨y, d, hy, hd, hx⟩ := Path.append_cons_iff.1 h
      have hs := sane_reads (hy.sane hp (sane_origins hc)) hd
      exact .inr ⟨y, ih.2 ⟨waits_of_reads hp hd, c, hc, hy⟩, d, hd,
        (mem_reach hp hs (depth_lt_bound hp hs)).2 ⟨hx, hw⟩⟩

/-- Whether configurations stand in the order of their rules. -/
def Ordered (cs : List LexConfig) : Prop := cs.Pairwise (·.alt ≤ ·.alt)

theorem alt_reach {fuel : Nat} {c x : LexConfig} (h : x ∈ reach net fuel c) : x.alt = c.alt := by
  induction fuel generalizing c with
  | zero => simp [reach] at h
  | succ fuel ih =>
    rw [reach, List.mem_append, List.mem_flatMap] at h
    rcases h with h | ⟨d, hd, h⟩
    · split at h
      · rw [List.mem_singleton.1 h]
      · simp at h
    · rw [ih h, Path.alt_slips hd]

theorem Ordered.flatMap {cs : List LexConfig} {f : LexConfig → List LexConfig} (h : Ordered cs)
    (hf : ∀ c, ∀ x ∈ f c, x.alt = c.alt) : Ordered (({} : LexConfigs).addAll (cs.flatMap f)).configs.toList := by
  obtain ⟨ds, hd, hs⟩ := LexConfigs.addAll_sublist {} (cs.flatMap f)
  have hm : (cs.flatMap f).Pairwise (·.alt ≤ ·.alt) := by
    refine List.pairwise_flatMap.2 ⟨fun c _ => ?_, h.imp fun {c d} hcd x hx y hy => ?_⟩
    · exact List.Pairwise.imp_of_mem (R := fun _ _ => True)
        (fun hx hy _ => by simp only [hf c _ hx, hf c _ hy, Int.le_refl]) (List.pairwise_of_forall fun _ _ => trivial)
    · rw [hf c x hx, hf d y hy]
      exact hcd
  rw [hs]
  exact hm.sublist hd

theorem ordered_origins (n : Nat) : Ordered (origins net n) := by
  unfold Ordered origins
  rw [List.pairwise_map, List.pairwise_iff_getElem]
  intro i j hi hj hij
  simp
  omega

theorem ordered_after (n : Nat) (u : List Char) : Ordered (after net n u).configs.toList := by
  induction u using List.reverseRecOn with
  | nil => exact (ordered_origins n).flatMap fun c x hx => alt_reach hx
  | append_singleton u a ih =>
    rw [after_snoc]
    refine ih.flatMap fun c x hx => ?_
    obtain ⟨d, hd, hx⟩ := List.mem_flatMap.1 hx
    rw [alt_reach hx, Path.alt_reads hd]

theorem sane_after (hp : Plain net rank) {n : Nat} {u : List Char} {x : LexConfig}
    (h : x ∈ (after net n u).configs) : Sane net x := by
  obtain ⟨_, c, hc, hx⟩ := (mem_after hp).1 h
  exact hx.sane hp (sane_origins hc)

end Lexing

end Throbac
