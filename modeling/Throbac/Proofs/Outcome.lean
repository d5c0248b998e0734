import Throbac.Recognition
import Throbac.Proofs.Run

/-!
# Outcomes of parsing

Work of a parser ends in one of three ways: it gives a value, it meets input that it cannot take, or
it is broken off. `Ends` says in which states each of the three may leave the parser; work that is
never broken off leaves no state that way.
-/
namespace Throbac

variable {σ α β : Type}

/-- Work that, started in `s`, gives a value as in `Q`, meets an error as in `E`, or is broken off as
in `F`. -/
def Ends (F : σ → Prop) (m : EStateM Interruption σ α) (s : σ) (Q : α → σ → Prop)
    (E : RecognitionError → σ → Prop) : Prop :=
  match m s with
  | .ok a s' => Q a s'
  | .error (.recognition e) s' => E e s'
  | .error _ s' => F s'

namespace Ends

variable {F : σ → Prop} {m : EStateM Interruption σ α} {s s' : σ} {Q Q' : α → σ → Prop}
  {E E' : RecognitionError → σ → Prop}

theorem of_ok {a : α} (h : m s = .ok a s') (hq : Q a s') : Ends F m s Q E := by
  simp only [Ends, h]
  exact hq

theorem of_recognition {e : RecognitionError} (h : m s = .error (.recognition e) s')
    (he : E e s') : Ends F m s Q E := by
  simp only [Ends, h]
  exact he

theorem of_fault {f : Fault} (h : m s = .error (.fault f) s') (hf : F s') : Ends F m s Q E := by
  simp only [Ends, h]
  exact hf

theorem cases (h : Ends F m s Q E) :
    (∃ a s', m s = .ok a s' ∧ Q a s') ∨
      (∃ e s', m s = .error (.recognition e) s' ∧ E e s') ∨
      (∃ e s', m s = .error e s' ∧ (∀ r, e ≠ .recognition r) ∧ F s') := by
  unfold Ends at h
  cases hm : m s with
  | ok a s' => exact .inl ⟨a, s', rfl, by simpa only [hm] using h⟩
  | error e s' =>
    cases e with
    | recognition e => exact .inr (.inl ⟨e, s', rfl, by simpa only [hm] using h⟩)
    | fault f => exact .inr (.inr ⟨_, s', rfl, by simp, by simpa only [hm] using h⟩)
    | cancelled e => exact .inr (.inr ⟨_, s', rfl, by simp, by simpa only [hm] using h⟩)

theorem of_broken {e : Interruption} (h : m s = .error e s') (hne : ∀ r, e ≠ .recognition r)
    (hf : F s') : Ends F m s Q E := by
  unfold Ends
  rw [h]
  cases e with
  | recognition e => exact absurd rfl (hne e)
  | fault f => exact hf
  | cancelled e => exact hf

theorem mono (h : Ends F m s Q E) (hq : ∀ a s', Q a s' → Q' a s')
    (he : ∀ e s', E e s' → E' e s') : Ends F m s Q' E' := by
  rcases h.cases with ⟨a, s', hm, h⟩ | ⟨e, s', hm, h⟩ | ⟨e, s', hm, hne, h⟩
  · exact of_ok hm (hq a s' h)
  · exact of_recognition hm (he e s' h)
  · exact of_broken hm hne h

theorem pure {a : α} (h : Q a s) : Ends F (Pure.pure a) s Q E := h

theorem bind {f : α → EStateM Interruption σ β} {R : β → σ → Prop}
    (h : Ends F m s Q E) (hf : ∀ a s', Q a s' → Ends F (f a) s' R E) :
    Ends F (m >>= f) s R E := by
  rcases h.cases with ⟨a, s', hm, h⟩ | ⟨e, s', hm, h⟩ | ⟨e, s', hm, hne, h⟩
  · have := hf a s' h
    unfold Ends at this ⊢
    rwa [Run.bind_ok hm]
  · exact of_recognition (Run.bind_error hm) h
  · exact of_broken (Run.bind_error hm) hne h

theorem bind_ok {f : α → EStateM Interruption σ β} {R : β → σ → Prop} {a : α}
    (hm : m s = .ok a s') (h : Ends F (f a) s' R E) : Ends F (m >>= f) s R E := by
  unfold Ends at h ⊢
  rwa [Run.bind_ok hm]

theorem rescue {h : Interruption → EStateM Interruption σ α} (hm : Ends F m s Q E)
    (hr : ∀ e s', E e s' → Ends F (h (.recognition e)) s' Q E')
    (hf : ∀ e s', (∀ r, e ≠ .recognition r) → h e s' = .error e s') :
    Ends F (tryCatchThe Interruption m h) s Q E' := by
  have hcatch : ∀ e s', m s = .error e s' → tryCatchThe Interruption m h s = h e s' := by
    intro e s' he
    rw [Run.tryCatch_apply, he]
  rcases hm.cases with ⟨a, s', hm, h'⟩ | ⟨e, s', hm, h'⟩ | ⟨e, s', hm, hne, h'⟩
  · exact of_ok (by rw [Run.tryCatch_apply, hm]) h'
  · have := hr e s' h'
    unfold Ends at this ⊢
    rwa [hcatch _ _ hm]
  · exact of_broken ((hcatch _ _ hm).trans (hf e s' hne)) hne h'

theorem ensure {fin : EStateM Interruption σ β} (hm : Ends F m s Q E)
    (hq : ∀ a s', Q a s' → ∃ b s'', fin s' = .ok b s'' ∧ Q' a s'')
    (he : ∀ e s', E e s' → ∃ b s'', fin s' = .ok b s'' ∧ E' e s'')
    (hf : ∀ s', F s' → ∃ b s'', fin s' = .ok b s'' ∧ F s'') : Ends F (tryFinally m fin) s Q' E' := by
  rcases hm.cases with ⟨a, s', hm, h⟩ | ⟨e, s', hm, h⟩ | ⟨e, s', hm, hne, h⟩
  · obtain ⟨b, s'', hfin, h'⟩ := hq a s' h
    exact of_ok (Run.tryFinally_ok hm hfin) h'
  · obtain ⟨b, s'', hfin, h'⟩ := he e s' h
    exact of_recognition (Run.tryFinally_error hm hfin) h'
  · obtain ⟨b, s'', hfin, h'⟩ := hf s' h
    exact of_broken (Run.tryFinally_error hm hfin) hne h'

theorem finish (fin : EStateM Interruption σ β) {R : α → β → σ → Prop}
    (hm : Ends F m s Q fun _ _ => False)
    (hq : ∀ a s', Q a s' → Ends F fin s' (R a) fun _ _ => False)
    (hf : ∀ s', F s' → Ends F fin s' (fun _ => F) fun _ _ => False) :
    Ends F (tryFinally' m fun _ => fin) s (fun r => R r.1 r.2) fun _ _ => False := by
  rcases hm.cases with ⟨a, s', hm, h⟩ | ⟨e, s', _, h⟩ | ⟨e, s', hm, hne, h⟩
  · rcases (hq a s' h).cases with ⟨b, s'', hb, h'⟩ | ⟨_, _, _, h'⟩ | ⟨e, s'', hb, hne, h'⟩
    · exact of_ok (a := (a, b)) (by simp only [tryFinally', hm, hb]) h'
    · exact h'.elim
    · exact of_broken (by simp only [tryFinally', hm, hb]) hne h'
  · exact h.elim
  · rcases (hf s' h).cases with ⟨b, s'', hb, h'⟩ | ⟨_, _, _, h'⟩ | ⟨e', s'', hb, hne', h'⟩
    · exact of_broken (by simp only [tryFinally', hm, hb]) hne h'
    · exact h'.elim
    · exact of_broken (by simp only [tryFinally', hm, hb]) hne' h'

end Ends

end Throbac
