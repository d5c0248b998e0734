import Throbac.Prediction.Config
import Throbac.Proofs.Stack.Sharing

/-!
# Sets of configurations

Adding to a set never fails, and every configuration keeps its place. A property of configurations that
merging keeps is kept by every set.
-/
namespace Throbac

open StackContext (Proper Merged Known)

namespace Config

/-- The configuration with the stacks and marks of another one at the same place. -/
def absorb (e c : Config) (merged : StackContext) : Config :=
  { e with context := merged, outer := max e.outer c.outer, spared := e.spared || c.spared }

variable {a b : Config}

theorem sharesPlace_iff : a.sharesPlace b = true ↔ a.state = b.state ∧ a.alt = b.alt ∧ a.guard = b.guard := by
  simp [sharesPlace, and_assoc]

theorem sharesPlace_comm (a b : Config) : a.sharesPlace b = b.sharesPlace a := by
  rw [Bool.eq_iff_iff, sharesPlace_iff, sharesPlace_iff]
  constructor
  · rintro ⟨h₁, h₂, h₃⟩
    exact ⟨h₁.symm, h₂.symm, h₃.symm⟩
  · rintro ⟨h₁, h₂, h₃⟩
    exact ⟨h₁.symm, h₂.symm, h₃.symm⟩

end Config

/-- A property of configurations that is kept when two of them are merged. -/
def Mergeable (size : Nat) (wild : Bool) (Φ : Config → Prop) : Prop :=
  ∀ e c m, c.sharesPlace e = true → Φ e → Φ c → Merged size wild e.context c.context m →
    Φ (e.absorb c m)

namespace ConfigSet

/-- A set that can be added to, all of whose configurations have a property, each at a place of its
own. -/
structure Fine (size : Nat) (full : Bool) (Φ : Config → Prop) (s : ConfigSet) : Prop where
  fullContext : s.fullContext = full
  readonly : s.readonly = false
  searchable : s.searchable = true
  proper : ∀ (i : Nat) c, s.configs[i]? = some c → Proper size (!full) c.context
  all : ∀ (i : Nat) c, s.configs[i]? = some c → Φ c
  apart : ∀ (i j : Nat) a b, s.configs[i]? = some a → s.configs[j]? = some b →
    a.sharesPlace b = true → i = j
  unsettled : s.uniqueAlt = 0 ∧ s.conflicting = none

/-- The configurations of the first set have their places in the second. -/
def Grows (s s' : ConfigSet) : Prop :=
  ∀ (i : Nat) e, s.configs[i]? = some e → ∃ e', s'.configs[i]? = some e' ∧ e.sharesPlace e' = true

/-- The set with the marks of a configuration that is added. -/
def noted (s : ConfigSet) (c : Config) : ConfigSet :=
  { s with
    hasGuard := s.hasGuard || decide (c.guard ≠ .always)
    dipsOutside := s.dipsOutside || decide (c.outer > 0) }

variable {size : Nat} {full : Bool} {Φ : Config → Prop} {s : ConfigSet} {cache : Option MergeCache} {c e : Config}
  {m : StackContext} {i : Nat}

def pushed (s : ConfigSet) (c : Config) : ConfigSet := { s.noted c with configs := s.configs.push c }

theorem getElem?_pushed {j : Nat} {d : Config} (h : (s.pushed c).configs[j]? = some d) :
    s.configs[j]? = some d ∨ (j = s.size ∧ d = c) := by
  rw [pushed, Array.getElem?_push] at h
  split at h
  · exact .inr ⟨‹_›, (Option.some.inj h).symm⟩
  · exact .inl h

theorem Fine.pushed (hs : s.Fine size full Φ) (hc : Φ c) (hproper : Proper size (!full) c.context)
    (hplace : s.place? c = none) : (s.pushed c).Fine size full Φ := by
  have hnew : ∀ (j : Nat) d, s.configs[j]? = some d → ¬ c.sharesPlace d = true := by
    intro j d hd
    rw [Array.findIdx?_eq_none_iff.1 hplace d (Array.mem_of_getElem? hd)]
    decide
  refine ⟨hs.fullContext, hs.readonly, hs.searchable, ?_, ?_, ?_, hs.unsettled⟩
  · intro j d hd
    rcases getElem?_pushed hd with hd | ⟨-, rfl⟩
    · exact hs.proper j d hd
    · exact hproper
  · intro j d hd
    rcases getElem?_pushed hd with hd | ⟨-, rfl⟩
    · exact hs.all j d hd
    · exact hc
  · intro j k a b ha hb hshare
    rcases getElem?_pushed ha with ha' | ⟨rfl, rfl⟩ <;> rcases getElem?_pushed hb with hb' | ⟨rfl, rfl⟩
    · exact hs.apart j k a b ha' hb' hshare
    · rw [Config.sharesPlace_comm] at hshare
      exact absurd hshare (hnew j a ha')
    · exact absurd hshare (hnew k b hb')
    · rfl

theorem grows_pushed : s.Grows (s.pushed c) := by
  intro j d hd
  refine ⟨d, ?_, Config.sharesPlace_iff.2 ⟨rfl, rfl, rfl⟩⟩
  have hlt := (Array.getElem?_eq_some_iff.1 hd).1
  rw [ConfigSet.pushed, Array.getElem?_push, if_neg (Nat.ne_of_lt hlt), hd]

theorem getElem?_absorb {j : Nat} {d : Config} (h : ((s.noted c).absorb i c m).configs[j]? = some d) :
    ∃ d', s.configs[j]? = some d' ∧ (d = d' ∨ (i = j ∧ d = d'.absorb c m)) := by
  simp only [ConfigSet.absorb, noted, Array.getElem?_modify] at h
  split at h
  · obtain ⟨d', hd', rfl⟩ := Option.map_eq_some_iff.1 h
    exact ⟨d', hd', .inr ⟨‹_›, rfl⟩⟩
  · exact ⟨d, h, .inl rfl⟩

theorem Fine.absorb (hΦ : Mergeable size (!full) Φ) (hs : s.Fine size full Φ) (hc : Φ c)
    (he : s.configs[i]? = some e) (hshare : c.sharesPlace e = true)
    (hmerged : Merged size (!full) e.context c.context m) :
    ((s.noted c).absorb i c m).Fine size full Φ := by
  refine ⟨hs.fullContext, hs.readonly, hs.searchable, ?_, ?_, ?_, hs.unsettled⟩
  · intro j d hd
    obtain ⟨d', hd', rfl | ⟨rfl, rfl⟩⟩ := getElem?_absorb hd
    · exact hs.proper j _ hd'
    · exact hmerged.proper
  · intro j d hd
    obtain ⟨d', hd', rfl | ⟨rfl, rfl⟩⟩ := getElem?_absorb hd
    · exact hs.all j _ hd'
    · obtain rfl : e = d' := Option.some.inj (he.symm.trans hd')
      exact hΦ e c m hshare (hs.all i e he) hc hmerged
  · intro j k a b ha hb hshare
    obtain ⟨a', ha', heq⟩ := getElem?_absorb ha
    obtain ⟨b', hb', heq'⟩ := getElem?_absorb hb
    refine hs.apart j k a' b' ha' hb' ?_
    rw [Config.sharesPlace_iff] at hshare ⊢
    rcases heq with rfl | ⟨-, rfl⟩ <;> rcases heq' with rfl | ⟨-, rfl⟩ <;> exact hshare

theorem grows_absorb : s.Grows ((s.noted c).absorb i c m) := by
  intro j d hd
  by_cases hij : i = j
  · subst hij
    exact ⟨d.absorb c m, by simp [ConfigSet.absorb, noted, Array.getElem?_modify, hd, Config.absorb],
      Config.sharesPlace_iff.2 ⟨rfl, rfl, rfl⟩⟩
  · exact ⟨d, by simp [ConfigSet.absorb, noted, Array.getElem?_modify, hij, hd],
      Config.sharesPlace_iff.2 ⟨rfl, rfl, rfl⟩⟩

/-- What adding a configuration does: it is new and stands behind the others, or its stacks are
merged into those of the one at its place. -/
theorem add_ok (hsize : (size : Int) ≤ StackContext.bottom) (hΦ : Mergeable size (!full) Φ)
    (hs : s.Fine size full Φ) (hc : Φ c) (hproper : Proper size (!full) c.context)
    (hcache : Known size (!full) cache) :
    ∃ i s' cache', add c (s, cache) = .ok i (s', cache') ∧ Known size (!full) cache' ∧
      s'.Fine size full Φ ∧ s.Grows s' ∧ (i = s.size → s' = s.pushed c) := by
  rw [add, Run.get_bind]
  dsimp only
  rw [hs.readonly, hs.searchable, hs.fullContext, if_neg Bool.false_ne_true, Run.modify_bind,
    if_neg (by decide)]
  cases hplace : s.place? c with
  | none =>
    exact ⟨s.size, _, cache, rfl, hcache, hs.pushed hc hproper hplace, grows_pushed, fun _ => rfl⟩
  | some i =>
    obtain ⟨hi, hshare, -⟩ := Array.findIdx?_eq_some_iff_getElem.1 hplace
    have he : s.configs[i]? = some s.configs[i] := Array.getElem?_eq_getElem hi
    have hget : s.configs.getD i default = s.configs[i] := by simp [hi]
    obtain ⟨m, cache', hmerge, hmerged, hknown⟩ :=
      StackContext.merge_ok hsize (hs.proper i _ he) hproper cache hcache
    have hmerging : merging (StackContext.merge (!full) s.configs[i].context c.context)
        (s.noted c, cache) = .ok m (s.noted c, cache') := by
      rw [merging, hmerge]
    refine ⟨i, (s.noted c).absorb i c m, cache', ?_, hknown, hs.absorb hΦ hc he hshare hmerged,
      grows_absorb, fun heq => ?_⟩
    · dsimp only
      rw [hget]
      exact Run.bind_ok hmerging
    · exact absurd hi (by rw [heq, ConfigSet.size]; exact Nat.lt_irrefl _)

theorem addAll_ok (hsize : (size : Int) ≤ StackContext.bottom) (hΦ : Mergeable size (!full) Φ)
    (hs : s.Fine size full Φ) {cs : List Config} (hcs : ∀ c ∈ cs, Φ c ∧ Proper size (!full) c.context)
    (hcache : Known size (!full) cache) :
    ∃ s' cache', (cs.forM fun c => do let _ ← add c) (s, cache) = .ok ⟨⟩ (s', cache') ∧
      Known size (!full) cache' ∧ s'.Fine size full Φ := by
  induction cs generalizing s cache with
  | nil => exact ⟨s, cache, rfl, hcache, hs⟩
  | cons c cs ih =>
    have hc := hcs c List.mem_cons_self
    obtain ⟨i, s₁, cache₁, hadd, hknown₁, hs₁, -⟩ := add_ok hsize hΦ hs hc.1 hc.2 hcache
    obtain ⟨s₂, cache₂, hrest, hknown₂, hs₂⟩ := ih hs₁ (fun c hc => hcs c (List.mem_cons_of_mem _ hc)) hknown₁
    refine ⟨s₂, cache₂, ?_, hknown₂, hs₂⟩
    have hfirst : (do let _ ← add c : ConfigM Unit) (s, cache) = .ok ⟨⟩ (s₁, cache₁) := Run.bind_ok hadd
    exact (Run.bind_ok hfirst).trans hrest

end ConfigSet

end Throbac
