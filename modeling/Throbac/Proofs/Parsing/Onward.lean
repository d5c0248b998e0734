import Throbac.Proofs.Parsing.Carrying

/-!
# Going on

A parser never goes back, it loses no token on the way, and it never tries the same in vain for ever.
Its effort is what is left of the input, counted together with the states at which it has not yet failed at the present place; no
step adds to it, and every token taken lessens it.
-/
namespace Throbac

open TokenStream (On At Holds)

def Frame.call (f : Frame) : Call := ⟨f.info.kind.rule, f.info.invoking⟩

namespace Tape

variable {T : Tape} {i j : Nat}

theorem length_ahead_le (T : Tape) (i : Nat) : (T.ahead i).length ≤ T.last + 1 := by
  have hfilter := List.length_filter_le visible (T.tokens.drop i)
  rw [List.length_drop, length_tokens] at hfilter
  exact Nat.le_trans hfilter (Nat.sub_le _ _)

theorem length_ahead_lt (hv : visible (T.token i) = true) (hij : i < j) (hj : j ≤ T.last) :
    (T.ahead j).length < (T.ahead i).length := by
  have hsub : (T.ahead j).length ≤ (T.ahead (i + 1)).length := by
    have hdrop : T.tokens.drop j = (T.tokens.drop (i + 1)).drop (j - (i + 1)) := by
      rw [List.drop_drop]
      congr 1
      omega
    rw [ahead, ahead, hdrop]
    exact ((List.drop_sublist _ _).filter _).length_le
  rw [ahead_eq (by omega) hv, List.length_cons]
  omega

end Tape

namespace Parser

/-- How many states are left at which the parser has not yet failed at the present place. -/
def trials (p : Parser) : Nat :=
  if p.lastErrorIndex = p.core.stream.index then
    ((List.range 160).filter fun n : Nat => !(p.lastErrorStates.getD []).contains (n : Int)).length
  else 161

theorem trials_le (p : Parser) : p.trials ≤ 161 := by
  unfold trials
  split
  · have h := List.length_filter_le
      (fun n : Nat => !(p.lastErrorStates.getD []).contains (n : Int)) (List.range 160)
    rw [List.length_range] at h
    omega
  · exact Nat.le_refl _

/-- What a parser can still do before the input is at its end. -/
def effort (T : Tape) (p : Parser) : Nat :=
  if p.place = T.last then 0 else (T.ahead p.place).length * 162 + p.trials

/-- A step that stays within the rules in progress and carries the tokens passed. -/
structure Onward (R : CacheCondition) (T : Tape) (p p' : Parser) : Prop where
  good : Good R T p'
  callers : p'.callers = p.callers
  precedences : p'.core.precedences = p.core.precedences
  place : p.place ≤ p'.place
  reports : ∃ rs, p'.core.reports = p.core.reports ++ rs
  effort : p'.effort T ≤ p.effort T
  carries : Carries T p p'

variable {R : CacheCondition} {T : Tape} {p p' p'' : Parser} {i : Nat}

theorem effort_lt (h : Good R T p) (h' : Good R T p') (hlt : p.place < p'.place) :
    p'.effort T < p.effort T := by
  have hle := h'.le
  have hahead := Tape.length_ahead_lt h.on.visible hlt hle
  have htrials := p'.trials_le
  unfold effort
  rw [if_neg (show ¬ p.place = T.last by omega)]
  split
  · omega
  · have := Nat.mul_le_mul_right 162 (Nat.succ_le_of_lt hahead)
    omega

theorem effort_le_of_trials (hplace : p'.place = p.place) (ht : p'.trials ≤ p.trials) :
    p'.effort T ≤ p.effort T := by
  unfold effort
  rw [hplace]
  split
  · exact Nat.le_refl _
  · exact Nat.add_le_add_left ht _

theorem effort_next (h : Good R T p) (h' : Good R T p') (hnext : p'.place = T.seek (p.place + 1)) :
    p'.effort T ≤ p.effort T ∧ (p.place ≠ T.last → p'.effort T < p.effort T) := by
  by_cases hlast : p.place = T.last
  · rw [Tape.seek_of_last_lt (by omega)] at hnext
    rw [effort, if_pos hnext]
    exact ⟨Nat.zero_le _, fun hne => absurd hlast hne⟩
  · have hle := h.le
    have hseek := Tape.le_seek (T := T) (i := p.place + 1) (by omega)
    have hlt := effort_lt h h' (by omega)
    exact ⟨Nat.le_of_lt hlt, fun _ => hlt⟩

namespace Onward

theorem refl (h : Good R T p) : Onward R T p p :=
  ⟨h, rfl, rfl, Nat.le_refl _, ⟨#[], by simp⟩, Nat.le_refl _, .refl h⟩

theorem trans (h : Onward R T p p') (h' : Onward R T p' p'') : Onward R T p p'' := by
  obtain ⟨rs, hrs⟩ := h.reports
  obtain ⟨rs', hrs'⟩ := h'.reports
  exact ⟨h'.good, h'.callers.trans h.callers, h'.precedences.trans h.precedences,
    Nat.le_trans h.place h'.place, ⟨rs ++ rs', by rw [hrs', hrs, Array.append_assoc]⟩,
    Nat.le_trans h'.effort h.effort, h.carries.trans h'.carries⟩

theorem clean (h : Onward R T p p') (hc : p'.core.reports = #[]) : p.core.reports = #[] := by
  obtain ⟨rs, hrs⟩ := h.reports
  rw [hrs, Array.append_eq_empty_iff] at hc
  exact hc.1

theorem marked (h : Onward R T p p') (hm : p.core.reports ≠ #[]) : p'.core.reports ≠ #[] :=
  fun hc => hm (h.clean hc)

theorem place_eq_or_lt (h : Onward R T p p') (hg : Good R T p) :
    p'.place = p.place ∨ p'.effort T < p.effort T := by
  rcases Nat.lt_or_eq_of_le h.place with hlt | heq
  · exact .inr (effort_lt hg h.good hlt)
  · exact .inl heq.symm

end Onward

theorem Shift.onward_still (h : Still R T p p') (hg : Good R T p) : Onward R T p p' := by
  obtain ⟨rs, hrs, _⟩ := h.reports
  refine ⟨h.good hg, h.callers, h.precedences, Nat.le_of_eq h.place.symm, ⟨rs, hrs⟩,
    effort_le_of_trials h.place (Nat.le_of_eq ?_), .of_stack hg.stack_ne_nil h.stack h.place⟩
  unfold trials
  rw [h.lastErrorIndex, h.lastErrorStates, h.on.index, hg.on.index]

/-! Single steps. -/

theorem callers_eq (p : Parser) : p.callers = p.stack.map Frame.call := rfl

theorem length_stack (h : Onward R T p p') : p'.stack.length = p.stack.length := by
  have := congrArg List.length h.callers
  simpa [callers_eq] using this

theorem Good.restack (h : Good R T p) {s : List Frame} {n : Int}
    (hs : s.map Frame.call = p.stack.map Frame.call) (hn : Part.isState 160 n = true) :
    Good R T { p with stack := s, core := { p.core with state := n } } :=
  { h with
    rules := by
      rw [callers_eq]
      exact hs ▸ h.rules
    state := fun _ => hn
    invoked := by
      rw [callers_eq]
      exact hs ▸ h.invoked }

theorem Good.change (h : Good R T p) {s : List Frame} {n : Int}
    (hs : s.map Frame.call = p.stack.map Frame.call) (hn : Part.isState 160 n = true)
    (hc : Carries T p { p with stack := s, core := { p.core with state := n } }) :
    Onward R T p { p with stack := s, core := { p.core with state := n } } where
  good := h.restack hs hn
  callers := hs
  precedences := rfl
  place := Nat.le_refl _
  reports := ⟨#[], by simp⟩
  effort := Nat.le_refl _
  carries := hc

theorem Good.setState (h : Good R T p) {n : Int} (hn : Part.isState 160 n = true) :
    Onward R T p { p with core := { p.core with state := n } } :=
  h.change rfl hn (.of_stack h.stack_ne_nil rfl rfl)

theorem modifyTop_ok (h : p.stack ≠ []) (f : Frame → Frame) :
    modifyTop f p = .ok ⟨⟩ { p with stack := p.stack.modifyHead f } := by
  unfold modifyTop
  rw [Run.get_bind]
  cases hs : p.stack with
  | nil => exact absurd hs h
  | cons t rest => rfl

theorem map_call_modifyHead {f : Frame → Frame} (hf : ∀ t, (f t).call = t.call)
    (stack : List Frame) : (stack.modifyHead f).map Frame.call = stack.map Frame.call := by
  cases stack with
  | nil => rfl
  | cons t rest => simp [hf]

theorem Good.modifyTop (h : Good R T p) {f : Frame → Frame} (hf : ∀ t, (f t).call = t.call)
    (ha : ∀ t, (f t).attached = t.attached) (hp : ∀ t, (f t).parts = t.parts) :
    Onward R T p { p with stack := p.stack.modifyHead f } := by
  obtain ⟨t, rest, hs⟩ := List.exists_cons_of_ne_nil h.stack_ne_nil
  refine h.change (map_call_modifyHead hf p.stack) h.isState
    (.of_leaves (g := f t) hs (by rw [hs]; rfl) (ha t) ?_ rfl)
  rw [leaves_close, leaves_close, hp]

/-- What taking the present token does. -/
structure Taken (R : CacheCondition) (T : Tape) (p p' : Parser) : Prop extends Onward R T p p' where
  next : p'.place = T.seek (p.place + 1)
  stack : p'.stack = p.stack.modifyHead (·.add (.leaf (T.token p.place) p.recovering))
  state : p'.core.state = p.core.state
  recovering : p'.recovering = p.recovering
  silent : T.silent = true → p'.core.reports = p.core.reports

theorem Good.consume (h : Good R T p) :
    ∃ p', consume p = .ok (T.token p.place) p' ∧ Taken R T p p' := by
  obtain ⟨p₁, hcurrent, hstill⟩ := h.current
  have h₁ := hstill.good h
  -- the stream moves on, unless it is at its end
  obtain ⟨p₂, hmove, hshift⟩ : ∃ p₂,
      (if (!(T.token p.place).isEof) = true then onStream TokenStream.consume else pure ⟨⟩) p₁ =
        .ok ⟨⟩ p₂ ∧ Shift R T (T.seek (p.place + 1)) p₁ p₂ := by
    rw [Tape.isEof_token h.le]
    by_cases hlast : p.place = T.last
    · refine ⟨p₁, by simp [hlast], ?_⟩
      have hseek : T.seek (p.place + 1) = p₁.place := by
        rw [Tape.seek_of_last_lt (by omega), hstill.place, hlast]
      rw [hseek]
      exact h₁.still
    · obtain ⟨s, hm, hon⟩ := hstill.on.consume (Nat.lt_of_le_of_ne h.le hlast)
      simp only [hlast, decide_false, Bool.not_false, if_true]
      exact h₁.reads hm hon
  have hle : p.place ≤ T.seek (p.place + 1) := by
    rcases Nat.lt_or_eq_of_le h.le with hlt | heq
    · have := Tape.le_seek (T := T) (i := p.place + 1) (by omega)
      omega
    · rw [Tape.seek_of_last_lt (by omega)]
      omega
  have hall := hstill.trans hshift
  have h₂ := hall.good h
  have hcalls := map_call_modifyHead (f := (·.add (.leaf (T.token p.place) p₂.recovering)))
    (fun _ => rfl) p₂.stack
  have hgood := h₂.restack hcalls h₂.isState
  have hstack : p₂.stack.modifyHead (·.add (.leaf (T.token p.place) p₂.recovering)) =
      p.stack.modifyHead (·.add (.leaf (T.token p.place) p.recovering)) := by
    rw [hall.stack, hall.recovering]
  obtain ⟨rs, hrs, _⟩ := hall.reports
  refine ⟨_, ?_, ⟨hgood, hcalls.trans hall.callers, hall.precedences,
    Nat.le_trans hle (Nat.le_of_eq hall.place.symm), ⟨rs, hrs⟩, (effort_next h hgood hall.place).1,
    .of_add h.stack_ne_nil hstack ?_⟩, hall.place, hstack, hall.state, hall.recovering,
    hall.silent⟩
  · rw [Parser.consume, Run.bind_ok hcurrent]
    refine (Run.ite_bind hmove).trans ?_
    dsimp only
    rw [Run.get_bind, if_pos (.inl h₂.building), Run.bind_ok (modifyTop_ok h₂.stack_ne_nil _),
      h₂.listeners]
    rfl
  · rw [ParseTree.leaves_leaf]
    exact hall.place ▸ .single h.le

theorem Taken.unbegun (h : Taken R T p p') (hr : p.recovering = true) (hu : Unbegun p) :
    Unbegun p' := by
  intro f hf
  rw [h.stack, hr] at hf
  cases hs : p.stack with
  | nil => simp [hs] at hf
  | cons g rest =>
    simp only [hs, List.modifyHead_cons, List.head?_cons, Option.mem_some_iff] at hf
    subst hf
    exact List.forall_mem_cons.2 ⟨⟨_, rfl⟩, hu g (by simp [hs])⟩

end Parser

end Throbac
