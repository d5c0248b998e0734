import Mathlib.Data.Set.Insert
import Throbac.Proofs.Stack.Merging

/-!
# Merging is union

Contexts of any well-formed shape, also arrays of one frame or of none, merge to the union of their
stacks. The cache may hold whatever earlier merges in the same mode gave or left behind, and these may
have used such caches themselves.
-/
namespace Throbac

namespace StackContext

/-- Return states lie below that of the bottom frame, any number of frames may stand side by side, and
the bottom frame may be the last of them. -/
@[reducible] def Form.any : Form where
  Ret r := r < bottom
  least := 0
  closed := false

theorem Form.suits_any {wild : Bool} : Form.any.Suits wild := ⟨fun _ => id, Nat.zero_le 2, by simp⟩

/-- A context whose arrays have increasing return states, the bottom only last and only above nothing. -/
abbrev WellFormed : StackContext → Prop := Formed .any

/-- The stacks of a context, return states from the top down. Where the bottom is a wildcard, any stack
may lie under it. -/
def callStacks (wild : Bool) (c : StackContext) : Set (List Int) := {γ | Reads wild γ c.frames}

variable {wild : Bool} {cache : Option MergeCache} {a b c : StackContext}

theorem callStacks_wildcard : empty.callStacks true = Set.univ :=
  Set.eq_univ_of_forall fun _ => reads_bottom.2 (.inl rfl)

theorem callStacks_empty : empty.callStacks false = {[]} := by
  ext γ
  exact reads_bottom.trans (by simp)

/-- An entry of a cache that an earlier merge in the mode accounts for: the result of merging, or what
merging left in its cache. -/
inductive Earlier (wild : Bool) : (StackContext × StackContext) × StackContext → Prop
  | result {a b c : StackContext} {cache cache' : Option MergeCache} (ha : WellFormed a)
    (hb : WellFormed b) (hcache : ∀ l, cache = some l → ∀ e ∈ l, Earlier wild e)
    (hrun : merge wild a b cache = .ok c cache') : Earlier wild ((a, b), c)
  | left {a b c : StackContext} {cache : Option MergeCache} {l : MergeCache}
    {e : (StackContext × StackContext) × StackContext} (ha : WellFormed a) (hb : WellFormed b)
    (hcache : ∀ l, cache = some l → ∀ e ∈ l, Earlier wild e)
    (hrun : merge wild a b cache = .ok c (some l)) (he : e ∈ l) : Earlier wild e

def FromEarlier (wild : Bool) (cache : Option MergeCache) : Prop :=
  ∀ l, cache = some l → ∀ e ∈ l, Earlier wild e

theorem merges_any (ha : WellFormed a) (hb : WellFormed b) : Merges .any wild wild (merge wild a b) a b :=
  merges_merge Form.suits_any id ha hb

theorem Earlier.unites {e : (StackContext × StackContext) × StackContext} (h : Earlier wild e) :
    Unites .any wild wild e.1.1 e.1.2 e.2 := by
  induction h with
  | result ha hb _ hrun ih =>
    obtain ⟨c', cache', hrun', hunites, -⟩ := merges_any ha hb _ ih
    rw [hrun] at hrun'
    injection hrun' with hc
    exact hc ▸ hunites
  | left ha hb _ hrun he ih =>
    obtain ⟨c', cache', hrun', -, hknows⟩ := merges_any ha hb _ ih
    rw [hrun] at hrun'
    injection hrun' with _ hcache
    exact hknows _ hcache.symm _ he

theorem FromEarlier.knows (h : FromEarlier wild cache) : Knows .any wild wild cache :=
  fun l hl e he => (h l hl e he).unites

theorem FromEarlier.left {cache' : Option MergeCache} (ha : WellFormed a) (hb : WellFormed b)
    (h : FromEarlier wild cache) (hrun : merge wild a b cache = .ok c cache') : FromEarlier wild cache' := by
  rintro l rfl e he
  exact .left ha hb h hrun he

theorem Unites.callStacks_eq {σ : Form} (h : Unites σ wild wild a b c) :
    c.callStacks wild = a.callStacks wild ∪ b.callStacks wild :=
  Set.ext fun γ => ⟨h.sound γ, h.covers γ⟩

theorem merge_any (ha : WellFormed a) (hb : WellFormed b) (hcache : FromEarlier wild cache) :
    ∃ c cache', merge wild a b cache = .ok c cache' ∧ WellFormed c ∧ FromEarlier wild cache' ∧
      c.callStacks wild = a.callStacks wild ∪ b.callStacks wild := by
  obtain ⟨c, cache', hrun, hunites, -⟩ := merges_any ha hb cache hcache.knows
  exact ⟨c, cache', hrun, hunites.formed, .left ha hb hcache hrun, hunites.callStacks_eq⟩

/-- Merging well-formed contexts gives a well-formed context for the union of their stacks. The other
order and any other cache of earlier merges give the same stacks. -/
theorem callStacks_merge (wild : Bool) {a b : StackContext} (ha : WellFormed a) (hb : WellFormed b)
    {cache : Option MergeCache} (hcache : FromEarlier wild cache) :
    ∃ c cache', merge wild a b cache = .ok c cache' ∧ WellFormed c ∧ FromEarlier wild cache' ∧
      c.callStacks wild = a.callStacks wild ∪ b.callStacks wild ∧
      ∀ other, FromEarlier wild other →
        (∃ d other', merge wild a b other = .ok d other' ∧ WellFormed d ∧ d.callStacks wild = c.callStacks wild) ∧
        ∃ d other', merge wild b a other = .ok d other' ∧ WellFormed d ∧ d.callStacks wild = c.callStacks wild := by
  obtain ⟨c, cache', hrun, hc, hcache', hunion⟩ := merge_any ha hb hcache
  refine ⟨c, cache', hrun, hc, hcache', hunion, fun other hother => ⟨?_, ?_⟩⟩
  · obtain ⟨d, other', hrun, hd, -, hunion'⟩ := merge_any ha hb hother
    exact ⟨d, other', hrun, hd, hunion'.trans hunion.symm⟩
  · obtain ⟨d, other', hrun, hd, -, hunion'⟩ := merge_any hb ha hother
    exact ⟨d, other', hrun, hd, by rw [hunion', Set.union_comm, hunion]⟩

/-- A frame above the empty stack, merged with the empty stack while the cache knows this merge in the
other order. -/
theorem callStacks_merge_frame : ∃ c cache',
    merge false (single empty 3) empty (some [((empty, single empty 3), array [empty, null] [3, bottom])]) =
      .ok c cache' ∧ c.callStacks false = (single empty 3).callStacks false ∪ empty.callStacks false := by
  have hframe : WellFormed (single empty 3) := .single (by decide) .empty
  have hcache : FromEarlier false (some [((empty, single empty 3), array [empty, null] [3, bottom])]) := by
    intro l hl e he
    obtain rfl := Option.some.inj hl
    obtain rfl := List.mem_singleton.1 he
    exact @Earlier.result false _ _ _ none _ .empty hframe (by simp) (by rw [merge.eq_def]; rfl)
  obtain ⟨c, cache', hrun, -, -, hunion, -⟩ := callStacks_merge false hframe .empty hcache
  exact ⟨c, cache', hrun, hunion⟩

end StackContext

end Throbac
