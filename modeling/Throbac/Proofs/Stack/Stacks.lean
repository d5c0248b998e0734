import Throbac.Stack.Merge
import Throbac.Proofs.Run
import Mathlib.Data.List.Basic

/-!
# The stacks of a context

A context stands for a set of stacks, read off its frames. The bottom frame stands for the empty
stack, or for any stack where the bottom is a wildcard. Over the states of a network a stack is a list
of their numbers, and where the bottom is a wildcard the upper part of a stack stands for it.
-/
namespace Throbac

namespace StackContext

/-- The stack, return states from the top down, is one of those with a frame on top. Where the bottom
is a wildcard, any stack may lie under it. -/
def Reads (wild : Bool) : List Int → List (StackContext × Int) → Prop
  | [], fs => ∃ p, (p, bottom) ∈ fs
  | r :: γ, fs => (wild = true ∧ ∃ p, (p, bottom) ∈ fs) ∨
    r ≠ bottom ∧ ∃ p, (p, r) ∈ fs ∧ Reads wild γ p.frames

/-- The stack of states is one of those with a frame on top. -/
def Tops : List Nat → List (StackContext × Int) → Prop
  | [], fs => ∃ p, (p, bottom) ∈ fs
  | r :: γ, fs => (r : Int) ≠ bottom ∧ ∃ p, (p, (r : Int)) ∈ fs ∧ Tops γ p.frames

def Has (c : StackContext) (γ : List Nat) : Prop := Tops γ c.frames

variable {wild lower upper : Bool} {fs gs hs : List (StackContext × Int)} {p q c : StackContext}

section Readings

variable {γ δ : List Int} {r : Int}

theorem reads_append : Reads wild γ (fs ++ gs) ↔ Reads wild γ fs ∨ Reads wild γ gs := by
  cases γ with
  | nil => simp only [Reads, List.mem_append, exists_or]
  | cons r γ =>
    simp only [Reads, List.mem_append, or_and_right, exists_or, and_or_left]
    exact or_or_or_comm

theorem reads_cons {f : StackContext × Int} : Reads wild γ (f :: fs) ↔ Reads wild γ [f] ∨ Reads wild γ fs :=
  @reads_append wild [f] fs γ

theorem reads_bottom : Reads wild γ [(p, bottom)] ↔ wild = true ∨ γ = [] := by
  cases γ with
  | nil => simp [Reads]
  | cons r γ =>
    simp only [Reads, List.mem_singleton, Prod.mk.injEq, and_true, exists_eq, reduceCtorEq, or_false,
      or_iff_left_iff_imp]
    rintro ⟨hne, q, ⟨-, hr⟩, -⟩
    exact absurd hr hne

theorem reads_frame (hr : r ≠ bottom) : Reads wild γ [(p, r)] ↔ ∃ δ, γ = r :: δ ∧ Reads wild δ p.frames := by
  have hnone : ¬ ∃ q : StackContext, (q, bottom) ∈ [(p, r)] := by
    rintro ⟨q, hq⟩
    rw [List.mem_singleton] at hq
    exact hr (congrArg Prod.snd hq).symm
  cases γ with
  | nil => simp only [Reads, hnone, reduceCtorEq, false_and, exists_false]
  | cons s γ =>
    simp only [Reads, hnone, and_false, false_or]
    simp only [List.mem_singleton, Prod.mk.injEq, List.cons.injEq]
    constructor
    · rintro ⟨-, q, ⟨rfl, rfl⟩, htop⟩
      exact ⟨γ, ⟨rfl, rfl⟩, htop⟩
    · rintro ⟨δ, ⟨rfl, rfl⟩, htop⟩
      exact ⟨hr, p, ⟨rfl, rfl⟩, htop⟩

end Readings

variable {γ δ : List Nat} {r : Nat}

theorem tops_iff : Tops γ fs ↔ Reads false (γ.map (↑)) fs := by
  induction γ generalizing fs with
  | nil => rfl
  | cons r γ ih => simp only [Tops, List.map_cons, Reads, Bool.false_eq_true, false_and, false_or, ih]

theorem tops_bottom : Tops γ [(p, bottom)] ↔ γ = [] := by
  rw [tops_iff, reads_bottom]
  simp

theorem tops_frame (hr : (r : Int) ≠ bottom) : Tops γ [(p, (r : Int))] ↔ ∃ δ, γ = r :: δ ∧ p.Has δ := by
  cases γ with
  | nil =>
    simp only [Tops, List.mem_singleton, Prod.mk.injEq, reduceCtorEq, false_and, exists_false, iff_false]
    rintro ⟨q, -, hb⟩
    exact hr hb.symm
  | cons s γ =>
    simp only [Tops, Has, List.mem_singleton, Prod.mk.injEq, Int.natCast_inj, List.cons.injEq]
    constructor
    · rintro ⟨-, q, ⟨rfl, rfl⟩, htop⟩
      exact ⟨γ, ⟨rfl, rfl⟩, htop⟩
    · rintro ⟨δ, ⟨rfl, rfl⟩, htop⟩
      exact ⟨hr, p, ⟨rfl, rfl⟩, htop⟩

theorem has_empty : empty.Has γ ↔ γ = [] := tops_bottom

theorem has_single (hr : (r : Int) ≠ bottom) : (single p r).Has γ ↔ ∃ δ, γ = r :: δ ∧ p.Has δ :=
  tops_frame hr

/-! ## Frames that are joined -/

/-- The frames `hs` have the stacks of two lists of frames: no others in the one reading, and all of
them in the other. -/
structure Joined (lower upper : Bool) (fs gs hs : List (StackContext × Int)) : Prop where
  sound : ∀ γ, Reads lower γ hs → Reads lower γ fs ∨ Reads lower γ gs
  covers : ∀ γ, Reads upper γ fs ∨ Reads upper γ gs → Reads upper γ hs

namespace Joined

theorem symm (h : Joined lower upper fs gs hs) : Joined lower upper gs fs hs :=
  ⟨fun γ ht => (h.sound γ ht).symm, fun γ ht => h.covers γ ht.symm⟩

theorem of_iff (h : ∀ wild γ, Reads wild γ hs ↔ Reads wild γ fs ∨ Reads wild γ gs) : Joined lower upper fs gs hs :=
  ⟨fun γ => (h lower γ).1, fun γ => (h upper γ).2⟩

theorem append : Joined lower upper fs gs (fs ++ gs) := of_iff fun _ _ => reads_append

theorem frame {a b : StackContext} {r : Int} (h : Joined lower upper a.frames b.frames c.frames)
    (hr : r ≠ bottom) : Joined lower upper [(a, r)] [(b, r)] [(c, r)] := by
  constructor
  · intro γ ht
    rw [reads_frame hr] at ht
    obtain ⟨δ, rfl, hδ⟩ := ht
    rw [reads_frame hr, reads_frame hr]
    exact (h.sound δ hδ).imp (fun h => ⟨δ, rfl, h⟩) fun h => ⟨δ, rfl, h⟩
  · intro γ ht
    rw [reads_frame hr, reads_frame hr] at ht
    rw [reads_frame hr]
    rcases ht with ⟨δ, rfl, hδ⟩ | ⟨δ, rfl, hδ⟩
    · exact ⟨δ, rfl, h.covers δ (.inl hδ)⟩
    · exact ⟨δ, rfl, h.covers δ (.inr hδ)⟩

theorem extend {fs' gs' hs' : List (StackContext × Int)} (h : Joined lower upper fs gs hs)
    (h' : Joined lower upper fs' gs' hs') :
    Joined lower upper (fs ++ fs') (gs ++ gs') (hs ++ hs') := by
  constructor
  · intro γ ht
    rw [reads_append] at ht ⊢
    rw [reads_append]
    have := ht.imp (h.sound γ) (h'.sound γ)
    tauto
  · intro γ ht
    rw [reads_append, reads_append] at ht
    rw [reads_append]
    have hleft := h.covers γ
    have hright := h'.covers γ
    tauto

/-- Frames that are joined in two steps: the first of one list with the other list, and its rest with
what lies behind. -/
theorem rest {f : StackContext × Int} {front rest : List (StackContext × Int)}
    (h : Joined lower upper [f] gs (front ++ rest)) (h' : Joined lower upper fs rest hs) :
    Joined lower upper (f :: fs) gs (front ++ hs) := by
  constructor
  · intro γ ht
    have hfirst := h.sound γ
    have hsecond := h'.sound γ
    rw [reads_append] at ht hfirst
    rw [reads_cons]
    tauto
  · intro γ ht
    have hfirst := h.covers γ
    have hsecond := h'.covers γ
    rw [reads_append] at hfirst ⊢
    rw [reads_cons] at ht
    tauto

end Joined

end StackContext

end Throbac
