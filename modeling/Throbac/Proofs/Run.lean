import Throbac.Fault

/-!
# Running work with a state

All work of the library runs in a state that survives a fault. The lemmas below say what one step of
such work does to a state, so that longer work is taken apart step by step.
-/
namespace Throbac

variable {ε σ α β : Type}

namespace Run

theorem bind_apply (m : EStateM ε σ α) (f : α → EStateM ε σ β) (s : σ) :
    (m >>= f) s = match m s with
      | .ok a s => f a s
      | .error e s => .error e s := rfl

theorem bind_ok {m : EStateM ε σ α} {f : α → EStateM ε σ β} {s s' : σ} {a : α}
    (h : m s = .ok a s') : (m >>= f) s = f a s' := by
  rw [bind_apply, h]

theorem bind_error {m : EStateM ε σ α} {f : α → EStateM ε σ β} {s s' : σ} {e : ε}
    (h : m s = .error e s') : (m >>= f) s = .error e s' := by
  rw [bind_apply, h]

theorem bind_congr {m m' : EStateM ε σ α} {f : α → EStateM ε σ β} {s s' : σ} (h : m s = m' s') :
    (m >>= f) s = (m' >>= f) s' := by
  rw [bind_apply, bind_apply, h]

theorem ite_bind {c : Prop} [Decidable c] {m : EStateM ε σ Unit} {f : Unit → EStateM ε σ β}
    {s s' : σ} (h : (if c then m else pure ()) s = .ok () s') :
    (if c then m >>= f else f ()) s = f () s' := by
  split at h
  · rw [if_pos ‹_›, bind_ok h]
  · rw [if_neg ‹_›]
    cases h
    rfl

theorem ite_bind_discard {c : Prop} [Decidable c] {m : EStateM ε σ α} {f : Unit → EStateM ε σ β}
    {s s' : σ} (h : (if c then m >>= fun _ => pure () else pure ()) s = .ok () s') :
    (if c then m >>= fun _ => f () else f ()) s = f () s' := by
  have := ite_bind (f := f) h
  rwa [bind_assoc] at this

theorem bind_discard {m : EStateM ε σ α} {s s' : σ} {b : β} (h : ∃ a, m s = .ok a s') :
    (m >>= fun _ => pure b) s = .ok b s' := by
  obtain ⟨a, h⟩ := h
  exact bind_ok h

theorem tryCatch_apply (m : EStateM ε σ α) (handle : ε → EStateM ε σ α) (s : σ) :
    tryCatchThe ε m handle s = match m s with
      | .ok a s => .ok a s
      | .error e s => handle e s := by
  change EStateM.tryCatch m handle s = _
  delta EStateM.tryCatch
  cases m s <;> rfl

theorem map_apply (f : α → β) (m : EStateM ε σ α) (s : σ) :
    (f <$> m) s = match m s with
      | .ok a s => .ok (f a) s
      | .error e s => .error e s := rfl

theorem map_ok {f : α → β} {m : EStateM ε σ α} {s s' : σ} {a : α} (h : m s = .ok a s') :
    (f <$> m) s = .ok (f a) s' := by
  rw [map_apply, h]

@[simp] theorem pure_apply (a : α) (s : σ) : (pure a : EStateM ε σ α) s = .ok a s := rfl

@[simp] theorem get_apply (s : σ) : (get : EStateM ε σ σ) s = .ok s s := rfl

@[simp] theorem set_apply (s t : σ) : (set t : EStateM ε σ PUnit) s = .ok ⟨⟩ t := rfl

@[simp] theorem modify_apply (f : σ → σ) (s : σ) :
    (modify f : EStateM ε σ PUnit) s = .ok ⟨⟩ (f s) := rfl

@[simp] theorem throw_apply (e : ε) (s : σ) :
    (throw e : EStateM ε σ α) s = .error e s := rfl

@[simp] theorem ofExcept_ok (a : α) (s : σ) :
    (MonadExcept.ofExcept (Except.ok a : Except ε α) : EStateM ε σ α) s = .ok a s := rfl

@[simp] theorem ofExcept_error (e : ε) (s : σ) :
    (MonadExcept.ofExcept (Except.error e : Except ε α) : EStateM ε σ α) s = .error e s := rfl

@[simp] theorem get_bind (f : σ → EStateM ε σ β) (s : σ) : (get >>= f) s = f s s := rfl

@[simp] theorem set_bind (t : σ) (f : PUnit → EStateM ε σ β) (s : σ) :
    (set t >>= f) s = f ⟨⟩ t := rfl

@[simp] theorem modify_bind (g : σ → σ) (f : PUnit → EStateM ε σ β) (s : σ) :
    (modify g >>= f) s = f ⟨⟩ (g s) := rfl

@[simp] theorem ofExcept_ok_bind (a : α) (f : α → EStateM ε σ β) (s : σ) :
    ((MonadExcept.ofExcept (Except.ok a : Except ε α) : EStateM ε σ α) >>= f) s = f a s := rfl

@[simp] theorem throw_bind (e : ε) (f : α → EStateM ε σ β) (s : σ) :
    ((throw e : EStateM ε σ α) >>= f) s = .error e s := rfl

theorem tryFinally_ok {m : EStateM ε σ α} {f : EStateM ε σ β} {s s' s'' : σ} {a : α} {b : β}
    (hm : m s = .ok a s') (hf : f s' = .ok b s'') : tryFinally m f s = .ok a s'' := by
  simp only [tryFinally, tryFinally', Functor.map, EStateM.map, hm, hf]

theorem tryFinally_error {m : EStateM ε σ α} {f : EStateM ε σ β} {s s' s'' : σ} {e : ε} {b : β}
    (hm : m s = .error e s') (hf : f s' = .ok b s'') : tryFinally m f s = .error e s'' := by
  simp only [tryFinally, tryFinally', Functor.map, EStateM.map, hm, hf]

/-- A loop whose rounds all go on, each with a known effect on the state, has the effects of its
rounds one after the other. -/
theorem forIn_yield {γ : Type} {f : γ → β → EStateM ε σ (ForInStep β)} {g : σ → γ → σ} {xs : List γ}
    (h : ∀ x ∈ xs, ∀ b s, ∃ b', f x b s = .ok (.yield b') (g s x)) (b : β) (s : σ) :
    ∃ b', (forIn xs b f : EStateM ε σ β) s = .ok b' (xs.foldl g s) := by
  induction xs generalizing b s with
  | nil => exact ⟨b, by simp⟩
  | cons x xs ih =>
    obtain ⟨b₁, h₁⟩ := h x List.mem_cons_self b s
    obtain ⟨b₂, h₂⟩ := ih (fun y hy => h y (List.mem_cons_of_mem x hy)) b₁ (g s x)
    exact ⟨b₂, by rw [List.forIn_cons, bind_ok h₁, List.foldl_cons]; exact h₂⟩

theorem forIn_achieves {γ : Type} {f : γ → β → EStateM ε σ (ForInStep β)} {P : σ → Prop}
    {R : σ → σ → Prop} {Q : γ → σ → Prop} {l : List γ} (hrefl : ∀ s, R s s)
    (htrans : ∀ s s' s'', R s s' → R s' s'' → R s s'') (hkeep : ∀ x s s', R s s' → Q x s → Q x s')
    {a : σ} (h : ∀ x ∈ l, ∀ b s, P s → R a s →
      ∃ b' s', f x b s = .ok (.yield b') s' ∧ P s' ∧ R s s' ∧ Q x s')
    (b : β) (hs : P a) :
    ∃ b' s', (forIn l b f : EStateM ε σ β) a = .ok b' s' ∧ P s' ∧ R a s' ∧ ∀ x ∈ l, Q x s' := by
  induction l generalizing b a with
  | nil => exact ⟨b, a, by simp, hs, hrefl a, by simp⟩
  | cons x l ih =>
    obtain ⟨b₁, s₁, h₁, hs₁, hr₁, hq₁⟩ := h x List.mem_cons_self b a hs (hrefl a)
    obtain ⟨b₂, s₂, h₂, hs₂, hr₂, hq₂⟩ := ih
      (fun y hy b s hs hr => h y (List.mem_cons_of_mem x hy) b s hs (htrans a s₁ s hr₁ hr)) b₁ hs₁
    refine ⟨b₂, s₂, by rw [List.forIn_cons, bind_ok h₁]; exact h₂, hs₂, htrans _ _ _ hr₁ hr₂, ?_⟩
    intro y hy
    rcases List.mem_cons.1 hy with rfl | hy
    · exact hkeep y s₁ s₂ hr₂ hq₁
    · exact hq₂ y hy

theorem forIn_keeps {γ : Type} {f : γ → β → EStateM ε σ (ForInStep β)} {P : σ → Prop} {R : σ → σ → Prop}
    {l : List γ} (hrefl : ∀ s, R s s) (htrans : ∀ s s' s'', R s s' → R s' s'' → R s s'') {a : σ}
    (h : ∀ x ∈ l, ∀ b s, P s → R a s → ∃ b' s', f x b s = .ok (.yield b') s' ∧ P s' ∧ R s s')
    (b : β) (hs : P a) :
    ∃ b' s', (forIn l b f : EStateM ε σ β) a = .ok b' s' ∧ P s' ∧ R a s' := by
  obtain ⟨b', s', hrun, hs', hr, -⟩ := forIn_achieves (Q := fun _ _ => True) hrefl htrans
    (fun _ _ _ _ h => h) (fun x hx b s hs hr => by
      obtain ⟨b', s', hround, hs', hr'⟩ := h x hx b s hs hr
      exact ⟨b', s', hround, hs', hr', trivial⟩) b hs
  exact ⟨b', s', hrun, hs', hr⟩

/-- Whether work gave a value that, with the state it left, passes the test. -/
def gives (f : α → σ → Bool) : EStateM.Result ε σ α → Bool
  | .ok a s => f a s
  | .error .. => false

theorem exists_of_gives {f : α → σ → Bool} {r : EStateM.Result ε σ α} (h : gives f r = true) :
    ∃ a s, r = .ok a s ∧ f a s = true := by
  cases r with
  | ok a s => exact ⟨a, s, rfl, h⟩
  | error e s => cases h

end Run

end Throbac
