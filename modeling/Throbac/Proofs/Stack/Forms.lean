import Mathlib.Data.List.TakeDrop
import Throbac.Proofs.Stack.Stacks

/-!
# The form of contexts

A context is in form when frames side by side stand by increasing return state, only the bottom frame
lies above nothing, and the same holds of what lies below its frames. Which return states there are,
how many frames stand side by side at least and whether the bottom frame may be one of them is left
open. A proper context has the form that pushing and merging give it over the states of a network:
arrays have two frames or more, and where the bottom is a wildcard the empty stack stands alone.
-/
namespace Throbac

namespace StackContext

/-- What contexts of one kind have in common. -/
structure Form where
  /-- The return states of the frames above the bottom. -/
  Ret : Int → Prop
  /-- The least number of frames side by side. -/
  least : Nat
  /-- Whether the bottom frame stands beside no other. -/
  closed : Bool

namespace Form

@[reducible] def states (size : Nat) (wild : Bool) : Form where
  Ret r := 0 ≤ r ∧ r < size
  least := 2
  closed := wild

/-- A form that merging keeps. -/
structure Suits (σ : Form) (wild : Bool) : Prop where
  below : ∀ r, σ.Ret r → r < bottom
  least : σ.least ≤ 2
  closed : σ.closed = true → wild = true

theorem suits_states {size : Nat} {wild : Bool} (hsize : (size : Int) ≤ bottom) : (states size wild).Suits wild :=
  ⟨fun _ hr => Int.lt_of_lt_of_le hr.2 hsize, Nat.le_refl 2, id⟩

theorem Suits.open {σ : Form} (h : σ.Suits false) : σ.closed = false := by
  cases hclosed : σ.closed with
  | false => rfl
  | true => cases h.closed hclosed

end Form

/-- Frames by increasing return state. Only the bottom frame lies above nothing, and there is none in
a closed form. -/
structure Lined (σ : Form) (fs : List (StackContext × Int)) : Prop where
  sorted : fs.Pairwise fun f g => f.2 < g.2
  closed : σ.closed = true → ∀ f ∈ fs, f.2 ≠ bottom
  ending : ∀ f ∈ fs, f.2 = bottom → f.1 = null
  range : ∀ f ∈ fs, f.2 ≠ bottom → σ.Ret f.2

/-- A context in form. -/
inductive Formed (σ : Form) : StackContext → Prop
  | empty : Formed σ .empty
  | single {p : StackContext} {r : Int} (hr : σ.Ret r) (hp : Formed σ p) : Formed σ (.single p r)
  | array {ps : List StackContext} {rs : List Int} (hlength : ps.length = rs.length)
    (hleast : σ.least ≤ rs.length) (hlined : Lined σ (ps.zip rs))
    (hgrown : ∀ f ∈ ps.zip rs, f.2 ≠ bottom → Formed σ f.1) : Formed σ (.array ps rs)

/-- Every frame but the bottom lies above a context in form. -/
def Grown (σ : Form) (fs : List (StackContext × Int)) : Prop := ∀ f ∈ fs, f.2 ≠ bottom → Formed σ f.1

/-- A set of stacks over `size` states in the form that pushing and merging give it. -/
abbrev Proper (size : Nat) (wild : Bool) : StackContext → Prop := Formed (.states size wild)

variable {σ : Form} {size : Nat} {wild : Bool} {γ : List Nat} {fs gs hs low rest : List (StackContext × Int)}
  {c p q : StackContext} {r s : Int}

namespace Lined

theorem ofRet (hr : σ.Ret r) (hlt : r < bottom) : Lined σ [(p, r)] := by
  have hne : r ≠ bottom := Int.ne_of_lt hlt
  constructor <;> simp [hne, hr]

theorem insert (h : Lined σ (low ++ rest)) (hframe : Lined σ [(p, r)])
    (hlow : ∀ f ∈ low, f.2 < r) (hrest : ∀ f ∈ rest, r < f.2) :
    Lined σ (low ++ (p, r) :: rest) := by
  have hsorted := List.pairwise_append.1 h.sorted
  have hmem : ∀ f ∈ low ++ (p, r) :: rest, f ∈ low ++ rest ∨ f ∈ [(p, r)] := by
    simp only [List.mem_append, List.mem_cons, List.not_mem_nil, or_false]
    tauto
  refine ⟨?_, ?_, ?_, ?_⟩
  · refine List.pairwise_append.2 ⟨hsorted.1, List.pairwise_cons.2 ⟨hrest, hsorted.2.1⟩, ?_⟩
    intro f hf g hg
    rcases List.mem_cons.1 hg with rfl | hg
    · exact hlow f hf
    · exact hsorted.2.2 f hf g hg
  · intro hclosed f hf
    exact (hmem f hf).elim (h.closed hclosed f) (hframe.closed hclosed f)
  · intro f hf
    exact (hmem f hf).elim (h.ending f) (hframe.ending f)
  · intro f hf
    exact (hmem f hf).elim (h.range f) (hframe.range f)

theorem sublist (h : Lined σ fs) (hsub : gs.Sublist fs) : Lined σ gs :=
  ⟨h.sorted.sublist hsub, fun hw f hf => h.closed hw f (hsub.subset hf),
    fun f hf => h.ending f (hsub.subset hf), fun f hf => h.range f (hsub.subset hf)⟩

theorem append (h : Lined σ fs) (h' : Lined σ gs) (hlt : ∀ f ∈ fs, ∀ g ∈ gs, f.2 < g.2) :
    Lined σ (fs ++ gs) := by
  refine ⟨List.pairwise_append.2 ⟨h.sorted, h'.sorted, hlt⟩, ?_, ?_, ?_⟩
  · intro hclosed f hf
    exact (List.mem_append.1 hf).elim (h.closed hclosed f) (h'.closed hclosed f)
  · intro f hf
    exact (List.mem_append.1 hf).elim (h.ending f) (h'.ending f)
  · intro f hf
    exact (List.mem_append.1 hf).elim (h.range f) (h'.range f)

end Lined

theorem zip_fst_snd (fs : List (StackContext × Int)) : (fs.map Prod.fst).zip (fs.map Prod.snd) = fs := by
  induction fs with
  | nil => rfl
  | cons f fs ih => rw [List.map_cons, List.map_cons, List.zip_cons_cons, ih]

namespace Formed

theorem push_eq (h : Formed σ c) (r : Int) : c.push r = .single c r := by
  cases h <;> rfl

theorem ofFrames (hlined : Lined σ fs) (hgrown : Grown σ fs) (hleast : σ.least ≤ fs.length) :
    Formed σ (.array (fs.map Prod.fst) (fs.map Prod.snd)) := by
  refine .array (by simp) (by simpa using hleast) ?_ ?_
  · rwa [zip_fst_snd]
  · rwa [zip_fst_snd]

theorem lined (h : Formed σ c) (hσ : σ.Suits wild) (hempty : σ.closed = true → c ≠ .empty) :
    Lined σ c.frames := by
  cases h with
  | empty =>
    constructor
    · simp [frames]
    · intro hclosed
      exact absurd rfl (hempty hclosed)
    · simp [frames]
    · simp [frames]
  | single hr hp => exact .ofRet hr (hσ.below _ hr)
  | array hlength hleast hlined hgrown => exact hlined

theorem grown (h : Formed σ c) : Grown σ c.frames := by
  cases h with
  | empty =>
    intro f hf hne
    rw [frames, List.mem_singleton] at hf
    exact absurd (by rw [hf]) hne
  | single hr hp =>
    intro f hf _
    rw [frames, List.mem_singleton] at hf
    rwa [hf]
  | array hlength hleast hlined hgrown => exact hgrown

theorem frames_spread (h : Formed σ c) : c.spread.frames = c.frames := by
  cases h <;> rfl

theorem isAligned_spread (h : Formed σ c) : c.spread.isAligned = true := by
  cases h with
  | empty => rfl
  | single hr hp => rfl
  | array hlength hleast hlined hgrown => simp [spread, isAligned, hlength]

theorem spread_ne_null (h : Formed σ c) : c.spread ≠ null := by
  cases h <;> simp [spread]

theorem length_frames (h : Formed σ c) : c.frames.length = 1 ∨ σ.least ≤ c.frames.length := by
  cases h with
  | empty => exact .inl rfl
  | single hr hp => exact .inl rfl
  | array hlength hleast hlined hgrown =>
    right
    rw [frames, List.length_zip]
    omega

theorem push (hframe : Lined σ [(p, r)]) (hgrown : Grown σ [(p, r)]) :
    Formed σ (p.push r) ∧ (p.push r).frames = [(p, r)] := by
  by_cases hr : r = bottom
  · obtain rfl : p = null := hframe.ending _ List.mem_cons_self hr
    subst hr
    exact ⟨.empty, rfl⟩
  · have hp : Formed σ p := hgrown _ List.mem_cons_self hr
    rw [hp.push_eq]
    exact ⟨.single (hframe.range _ List.mem_cons_self hr) hp, rfl⟩

end Formed

/-! ## Proper contexts -/

theorem listAt_natCast {α : Type} {xs : List α} {k : Nat} (h : k < xs.length) :
    Sequence.listAt xs (k : Int) = .ok xs[k] := by
  rw [Sequence.listAt, Sequence.listAt?, Sequence.resolve?_natCast h, Option.bind_some,
    List.getElem?_eq_getElem h]

namespace Proper

theorem range (h : Proper size wild c) : ∀ f ∈ c.frames, f.2 ≠ bottom → 0 ≤ f.2 ∧ f.2 < size := by
  cases h with
  | empty =>
    intro f hf hne
    rw [frames, List.mem_singleton] at hf
    exact absurd (by rw [hf]) hne
  | single hr hp =>
    intro f hf _
    rw [frames, List.mem_singleton] at hf
    rwa [hf]
  | array hlength htwo hlined hgrown => exact hlined.range

theorem lined (h : Proper size wild c) (hsize : (size : Int) ≤ bottom)
    (hempty : wild = true → c ≠ .empty) : Lined (.states size wild) c.frames :=
  Formed.lined h (Form.suits_states hsize) hempty

theorem exists_has (h : Proper size wild c) (hsize : (size : Int) ≤ bottom) : ∃ γ, c.Has γ := by
  induction h with
  | empty => exact ⟨[], has_empty.2 rfl⟩
  | @single p r hr hp ih =>
    obtain ⟨γ, hγ⟩ := ih
    obtain ⟨hzero, hlt⟩ : 0 ≤ r ∧ r < size := hr
    obtain ⟨n, rfl⟩ := Int.eq_ofNat_of_zero_le hzero
    exact ⟨n :: γ, (has_single (by omega)).2 ⟨γ, rfl, hγ⟩⟩
  | @array ps rs hlength htwo hlined hgrown ih =>
    have hpos : 0 < (ps.zip rs).length := by
      have htwo : 2 ≤ rs.length := htwo
      rw [List.length_zip]
      omega
    obtain ⟨f, hf⟩ := List.exists_mem_of_length_pos hpos
    by_cases hb : f.2 = bottom
    · exact ⟨[], f.1, hb ▸ hf⟩
    · obtain ⟨γ, hγ⟩ := ih f hf hb
      obtain ⟨n, hn⟩ := Int.eq_ofNat_of_zero_le (hlined.range f hf hb).1
      exact ⟨n :: γ, hn ▸ hb, f.1, hn ▸ hf, hγ⟩

theorem exists_frames {ps : List StackContext} {rs : List Int} (hlength : ps.length = rs.length)
    (htwo : 2 ≤ rs.length) : ∃ p q ps' r s rs', ps = p :: q :: ps' ∧ rs = r :: s :: rs' := by
  obtain ⟨p, q, ps, rfl⟩ : ∃ p q ps', ps = p :: q :: ps' := by
    match ps, hlength ▸ htwo with
    | p :: q :: ps, _ => exact ⟨p, q, ps, rfl⟩
  obtain ⟨r, s, rs, rfl⟩ : ∃ r s rs', rs = r :: s :: rs' := by
    match rs, htwo with
    | r :: s :: rs, _ => exact ⟨r, s, rs, rfl⟩
  exact ⟨p, q, ps, r, s, rs, rfl, rfl⟩

theorem first_ne_bottom (hlined : Lined (.states size wild) ((p, r) :: (q, s) :: fs)) (hsize : (size : Int) ≤ bottom) :
    r ≠ bottom := by
  have hlt : r < s := (List.pairwise_cons.1 hlined.sorted).1 (q, s) List.mem_cons_self
  have hs : s ≤ bottom := by
    by_cases hb : s = bottom
    · exact Int.le_of_eq hb
    · have := hlined.range (q, s) (List.mem_cons_of_mem _ List.mem_cons_self) hb
      dsimp only at this
      omega
  omega

theorem isEmpty_eq (h : Proper size wild c) (hsize : (size : Int) ≤ bottom) :
    c.isEmpty = .ok (decide (c = .empty)) := by
  cases h with
  | empty => rfl
  | single hr hp => rfl
  | @array ps rs hlength htwo hlined hgrown =>
    obtain ⟨p, q, ps, r, s, rs, rfl, rfl⟩ := exists_frames hlength htwo
    have hne := first_ne_bottom hlined hsize
    have hget : Sequence.listAt (r :: s :: rs) 0 = .ok r := listAt_natCast (k := 0) (by simp)
    rw [isEmpty, hget]
    simp [hne]

theorem eq_empty_of_nil (h : Proper size wild c) (hsize : (size : Int) ≤ bottom) (hnil : ∀ γ, c.Has γ → γ = []) :
    c = .empty := by
  cases h with
  | empty => rfl
  | @single p r hr hp =>
    obtain ⟨hzero, hlt⟩ : 0 ≤ r ∧ r < size := hr
    obtain ⟨n, rfl⟩ := Int.eq_ofNat_of_zero_le hzero
    obtain ⟨γ, hγ⟩ := exists_has hp hsize
    cases hnil (n :: γ) ((has_single (by omega)).2 ⟨γ, rfl, hγ⟩)
  | @array ps rs hlength htwo hlined hgrown =>
    obtain ⟨p, q, ps, r, s, rs, rfl, rfl⟩ := exists_frames hlength htwo
    have hne := first_ne_bottom hlined hsize
    obtain ⟨γ, hγ⟩ := exists_has (hgrown (p, r) List.mem_cons_self hne) hsize
    obtain ⟨n, rfl⟩ := Int.eq_ofNat_of_zero_le (hlined.range (p, r) List.mem_cons_self hne).1
    cases hnil (n :: γ) ⟨hne, p, List.mem_cons_self, hγ⟩

theorem hasEmptyPath_eq (h : Proper size wild c) (hsize : (size : Int) ≤ bottom) :
    ∃ b, c.hasEmptyPath = .ok b ∧ (b = true ↔ c.Has []) := by
  cases h with
  | empty => exact ⟨true, rfl, by simp [has_empty]⟩
  | @single p r hr hp =>
    have hne : r ≠ bottom := Int.ne_of_lt ((Form.suits_states hsize).below r hr)
    refine ⟨decide (r = bottom), rfl, ?_⟩
    simp [Has, Tops, frames, Ne.symm hne, hne]
  | @array ps rs hlength htwo hlined hgrown =>
    have htwo : 2 ≤ rs.length := htwo
    obtain ⟨k, hk⟩ : ∃ k, rs.length = k + 1 := ⟨rs.length - 1, by omega⟩
    have hget : Sequence.listAt rs ((rs.length : Int) - 1) = .ok rs[k] := by
      rw [show (rs.length : Int) - 1 = (k : Nat) by omega]
      exact listAt_natCast (by omega)
    have hzip : k < (ps.zip rs).length := by
      rw [List.length_zip]
      omega
    refine ⟨decide (rs[k] = bottom), ?_, ?_⟩
    · change (do return decide ((← Sequence.listAt rs ((rs.length : Int) - 1)) = bottom)) = _
      rw [hget]
      rfl
    · rw [decide_eq_true_eq]
      constructor
      · intro hb
        refine ⟨ps[k], ?_⟩
        rw [← hb, ← List.getElem_zip]
        exact List.getElem_mem hzip
      · rintro ⟨p, hp⟩
        rw [frames] at hp
        obtain ⟨j, hj, hat⟩ := List.mem_iff_getElem.1 hp
        have hjk : ¬ j < k := by
          intro hjk
          have hlt := List.pairwise_iff_getElem.1 hlined.sorted j k hj hzip hjk
          rw [hat] at hlt
          by_cases hb : ((ps.zip rs)[k]).2 = bottom
          · omega
          · have := hlined.range _ (List.getElem_mem hzip) hb
            dsimp only at hlt
            omega
        have hlen : (ps.zip rs).length = k + 1 := by
          rw [List.length_zip]
          omega
        obtain rfl : j = k := by omega
        rw [List.getElem_zip] at hat
        exact congrArg Prod.snd hat

theorem mono (h : Proper size true c) : Proper size wild c := by
  induction h with
  | empty => exact .empty
  | single hr hp ih => exact .single hr ih
  | array hlength htwo hlined hgrown ih =>
    exact .array hlength htwo ⟨hlined.sorted, fun _ => hlined.closed rfl, hlined.ending, hlined.range⟩ ih

end Proper

end StackContext

end Throbac
