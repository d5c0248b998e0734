import Throbac.Proofs.Parsing.Reports

/-!
# Recovering from errors

Recovery never fails and comes to an end. Where the parser does not move on, it remembers one more
state at which it failed, so the effort falls each time until the input is at its end.
-/
namespace Throbac

namespace Parser

variable {R : CacheCondition} {T : Tape} {p p' p'' : Parser} {e : RecognitionError}
  {F : Parser → Prop}

theorem followAll_ok {cs : List Int} (hcs : Invoked Grammar.parserNetwork cs) (h : Steady R T p)
    {s : SymbolSet} (hs : s.Named) :
    ∃ s' p', followAll cs s p = .ok s' p' ∧ Still R T p p' ∧ s'.Named := by
  induction hcs generalizing p s with
  | outermost hneg => exact ⟨s, p, by rw [followAll, if_pos hneg]; rfl, h.still, hs⟩
  | @call n follow rule precedence cs hlt hf hcall _ ih =>
    obtain ⟨t, p₁, hnext, hstill, ht⟩ := h.next hf
    obtain ⟨s', p', hrest, hstill', hs'⟩ := ih (hstill.steady h) (hs.union ht)
    refine ⟨s', p', ?_, hstill.still hstill', hs'⟩
    rw [followAll, if_neg (by omega), Run.get_bind, network_eq h.spec, Lookahead.stateAt_natCast hlt, ofFault, pure_bind, Invoked.followOf hcall, ofFault, pure_bind,
      Run.bind_ok hnext, hrest]

theorem recoverySet_ok (h : Steady R T p) :
    ∃ s p', recoverySet p = .ok s p' ∧ Still R T p p' ∧ s.Named := by
  obtain ⟨s, p', hall, hstill, hs⟩ := followAll_ok h.invoked h SymbolSet.named_empty
  exact ⟨_, p', by rw [recoverySet, Run.get_bind, Run.bind_ok hall]; rfl, hstill, hs.eraseOne _⟩

/-- What skipping leaves as it was. -/
structure Skipped (R : CacheCondition) (T : Tape) (p p' : Parser) : Prop extends Onward R T p p' where
  state : p'.core.state = p.core.state
  recovering : p'.recovering = p.recovering
  unbegun : p.recovering = true → Unbegun p → Unbegun p'

theorem skipTo_ok (s : SymbolSet) {fuel : Nat} (h : Good R T p) (hfuel : T.last < p.place + fuel) :
    ∃ p', skipTo s fuel p = .ok ⟨⟩ p' ∧ Skipped R T p p' := by
  induction fuel generalizing p with
  | zero =>
    have := h.le
    omega
  | succ fuel ih =>
    obtain ⟨p₁, hsymbol, hstill⟩ := h.symbol_one
    have h₁ := hstill.good h
    rw [skipTo, Run.bind_ok hsymbol]
    by_cases hstop : (T.token p.place).type = Symbol.eof ∨ s.contains (T.token p.place).type = true
    · exact ⟨p₁, by rw [if_pos hstop]; rfl, hstill.onward_still h, hstill.state, hstill.recovering,
        fun _ hu => hu.of_stack hstill.stack⟩
    · have hlast : p.place ≠ T.last := by
        intro hlast
        have heof := Tape.isEof_token h.le
        rw [hlast, decide_eq_true rfl] at heof
        exact hstop (.inl (by rw [hlast]; simpa [Token.isEof] using heof))
      obtain ⟨p₂, hconsume, htaken⟩ := h₁.consume
      have hplace : p₂.place = T.seek (p.place + 1) := by rw [htaken.next, hstill.place]
      have hseek := Tape.le_seek (T := T) (i := p.place + 1) (by have := h.le; omega)
      obtain ⟨p', hskip, hrest⟩ := ih htaken.good (by omega)
      refine ⟨p', ?_, ((hstill.onward_still h).trans htaken.toOnward).trans hrest.toOnward,
        hrest.state.trans (htaken.state.trans hstill.state),
        hrest.recovering.trans (htaken.recovering.trans hstill.recovering), fun hr hu => ?_⟩
      · rw [if_neg hstop, Run.bind_ok hconsume, hskip]
      · have hr₁ := hstill.recovering.trans hr
        exact hrest.unbegun (htaken.recovering.trans hr₁)
          (htaken.unbegun hr₁ (hu.of_stack hstill.stack))

theorem consumeUntil_ok (s : SymbolSet) (h : Good R T p) :
    ∃ p', consumeUntil s p = .ok ⟨⟩ p' ∧ Skipped R T p p' := by
  rw [consumeUntil, Run.get_bind]
  refine skipTo_ok s h ?_
  have := h.on.toHolds.remaining
  unfold Recognizer.stepBound
  omega

theorem trials_lt {n : Int} (hn : Part.isState 160 n = true) (states : List Int)
    (hnew : n ∉ states) :
    ((List.range 160).filter fun k : Nat => !(states ++ [n]).contains (k : Int)).length <
      ((List.range 160).filter fun k : Nat => !states.contains (k : Int)).length := by
  simp only [Part.isState, Bool.and_eq_true, decide_eq_true_eq] at hn
  have hsplit : ((List.range 160).filter fun k : Nat => !(states ++ [n]).contains (k : Int)) =
      ((List.range 160).filter fun k : Nat => !states.contains (k : Int)).filter
        fun k : Nat => decide ((k : Int) ≠ n) := by
    rw [List.filter_filter]
    congr 1
    funext k
    simp [Bool.and_comm]
  rw [hsplit]
  refine List.length_filter_lt_length_iff_exists.2 ⟨n.toNat, ?_, ?_⟩
  · rw [List.mem_filter, List.mem_range, Int.toNat_of_nonneg hn.1]
    exact ⟨by omega, by simpa using hnew⟩
  · simp [Int.toNat_of_nonneg hn.1]

def noteFailure (p : Parser) : Parser :=
  { p with
    lastErrorIndex := p.core.stream.index
    lastErrorStates := some (p.lastErrorStates.getD [] ++ [p.core.state]) }

theorem Good.noteFailure (h : Good R T p) : Good R T p.noteFailure := { h with }

theorem trials_noteFailure (h : Good R T p)
    (hnew : ¬ (p.lastErrorIndex = p.core.stream.index ∧
      p.core.state ∈ p.lastErrorStates.getD [])) : p.noteFailure.trials < p.trials := by
  have hnote : p.noteFailure.trials = ((List.range 160).filter fun n : Nat =>
      !(p.lastErrorStates.getD [] ++ [p.core.state]).contains (n : Int)).length := if_pos rfl
  rw [hnote]
  unfold trials
  split
  · next hindex => exact trials_lt h.isState _ fun hmem => hnew ⟨hindex, hmem⟩
  · have := List.length_filter_le (fun n : Nat =>
      !(p.lastErrorStates.getD [] ++ [p.core.state]).contains (n : Int)) (List.range 160)
    rw [List.length_range] at this
    omega

theorem recover_ok (h : Good R T p) :
    ∃ p', recover e p = .ok ⟨⟩ p' ∧ Onward R T p p' ∧
      (p.place ≠ T.last → p'.effort T < p.effort T) := by
  -- a failure that is not new costs a token
  obtain ⟨p₁, hdrop, honward, hlt⟩ : ∃ p₁,
      (if p.lastErrorIndex = p.core.stream.index ∧ p.core.state ∈ p.lastErrorStates.getD [] then do
        let _ ← consume
        pure () else pure () : ParseM Unit) p = .ok () p₁ ∧ Onward R T p p₁.noteFailure ∧
      (p.place ≠ T.last → p₁.noteFailure.effort T < p.effort T) := by
    by_cases hagain : p.lastErrorIndex = p.core.stream.index ∧
        p.core.state ∈ p.lastErrorStates.getD []
    · obtain ⟨p₁, hconsume, htaken⟩ := h.consume
      have hgood := htaken.good.noteFailure
      have heffort := effort_next h hgood htaken.next
      exact ⟨p₁, by rw [if_pos hagain]; exact Run.bind_ok hconsume, ⟨hgood, htaken.callers,
        htaken.precedences, htaken.place, htaken.reports, heffort.1, htaken.carries.before rfl rfl⟩,
        heffort.2⟩
    · have htrials := trials_noteFailure h hagain
      have hplace : p.noteFailure.place = p.place := rfl
      refine ⟨p, by rw [if_neg hagain]; rfl, ⟨h.noteFailure, rfl, rfl, Nat.le_refl _,
        ⟨#[], by simp [noteFailure]⟩, effort_le_of_trials hplace (Nat.le_of_lt htrials),
        (Carries.refl h).before rfl rfl⟩, fun hlast => ?_⟩
      unfold effort
      rw [hplace, if_neg hlast, if_neg hlast]
      omega
  obtain ⟨s, p₂, hset, hstill, _⟩ := recoverySet_ok honward.good.toSteady
  have honward₂ := honward.trans (hstill.onward_still honward.good)
  obtain ⟨p', hskip, hskipped⟩ := consumeUntil_ok s honward₂.good
  refine ⟨p', ?_, honward₂.trans hskipped.toOnward, fun hlast => ?_⟩
  · rw [recover, Run.get_bind, if_neg (by simp [h.bails]), if_neg (by simp [h.connected])]
    refine (Run.ite_bind_discard
      (f := fun _ => modify noteFailure >>= fun _ => recoverySet >>= consumeUntil) hdrop).trans ?_
    rw [Run.modify_bind, Run.bind_ok hset, hskip]
  · have h₁ := hlt hlast
    have h₂ := (hstill.onward_still honward.good).effort
    have h₃ := hskipped.effort
    omega

theorem map_call_mapIdx {f : Nat → Frame → Frame} (hf : ∀ i t, (f i t).call = t.call)
    (stack : List Frame) : (stack.mapIdx f).map Frame.call = stack.map Frame.call := by
  refine List.ext_getElem? fun i => ?_
  rw [List.getElem?_map, List.getElem?_mapIdx, List.getElem?_map]
  cases stack[i]? with
  | none => rfl
  | some t => exact congrArg some (hf i t)

theorem mapIdx_top (g : Frame → Frame) (f : Frame) (rest : List Frame) :
    (f :: rest).mapIdx (fun i t => if i + (f :: rest).length = (f :: rest).length then g t else t) =
      g f :: rest := by
  rw [List.mapIdx_cons, Nat.zero_add, if_pos rfl]
  refine congrArg _ (List.ext_getElem? fun i => ?_)
  rw [List.getElem?_mapIdx]
  cases rest[i]? with
  | none => rfl
  | some t => exact congrArg some (if_neg (by omega))

theorem rescue_ok (h : Good R T p) (hT : T.Spelled) (he : Sensible T e) {height : Nat}
    (hheight : height = p.stack.length) :
    ∃ p', Rule.rescue height (.recognition e) p = .ok ⟨⟩ p' ∧ Onward R T p p' ∧
      p'.core.reports ≠ #[] ∧ (p.place ≠ T.last → p'.effort T < p.effort T) := by
  have hcalls : ∀ (i : Nat) (f : Frame), (if i + height = p.stack.length then
      { f with info := { f.info with failure := some e.cause } } else f).call = f.call := by
    intro i f
    split <;> rfl
  obtain ⟨f, rest, hf⟩ := List.exists_cons_of_ne_nil h.stack_ne_nil
  have hmark := h.change (map_call_mapIdx hcalls p.stack) h.isState
    (.of_leaves (g := { f with info := { f.info with failure := some e.cause } }) hf
      (by rw [hheight, hf]; exact mapIdx_top _ f rest) rfl (by rw [leaves_close, leaves_close]) rfl)
  obtain ⟨p₁, hreport, hrep⟩ := report_ok hmark.good hT he
  obtain ⟨p', hrecover, honward, hlt⟩ := recover_ok (e := e) hrep.good
  have hrep' := hrep.onward hmark.good.toSteady
  refine ⟨p', ?_, (hmark.trans hrep').trans honward, honward.marked hrep.marked, fun hlast => ?_⟩
  · rw [Rule.rescue, Run.modify_bind, Run.bind_ok hreport, hrecover]
  · have h₁ := hlt (by rw [hrep.place]; exact hlast)
    have h₂ := hrep'.effort
    have h₃ := hmark.effort
    omega

def settled (p : Parser) : Parser :=
  { p with recovering := false, lastErrorStates := none, lastErrorIndex := -1 }

theorem Good.settled (h : Good R T p) : Good R T p.settled :=
  { h with recovering := fun hr => nomatch hr }

/-- What taking a token that fits does. -/
structure Matched (R : CacheCondition) (T : Tape) (p p' : Parser) : Prop extends
    Onward R T p p' where
  next : p'.place = T.seek (p.place + 1)
  state : p'.core.state = p.core.state
  recovering : p'.recovering = false
  silent : T.silent = true → p'.core.reports = p.core.reports

theorem settle_consume (h : Good R T p) :
    ∃ p', consume p.settled = .ok (T.token p.place) p' ∧ Matched R T p p' ∧
      p'.stack = p.stack.modifyHead (·.add (.leaf (T.token p.place) false)) := by
  obtain ⟨p', hconsume, htaken⟩ := h.settled.consume
  exact ⟨p', hconsume, ⟨⟨htaken.good, htaken.callers, htaken.precedences, htaken.place,
    htaken.reports, (effort_next h htaken.good htaken.next).1, htaken.carries.after rfl rfl⟩, htaken.next, htaken.state,
    htaken.recovering, htaken.silent⟩, htaken.stack⟩

theorem dropToken_ok (h : Good R T p) :
    (∃ p', dropToken p = .ok none p' ∧ Still R T p p') ∨
      ∃ t p', dropToken p = .ok (some t) p' ∧ Onward R T p p' ∧ p'.core.reports ≠ #[] ∧
        (Unbegun p → Unbegun p') ∧ t = T.token p'.place ∧
        (p.place ≠ T.last → p'.effort T < p.effort T) := by
  obtain ⟨p₁, hsymbol, hstill₁⟩ := h.symbol_two
  obtain ⟨s, p₂, hexpected, hstill₂, _⟩ := (hstill₁.good h).expected
  have hstill := hstill₁.still hstill₂
  rw [dropToken, Run.bind_ok hsymbol, Run.bind_ok hexpected]
  cases s.contains (T.token (T.seek (p.place + 1))).type with
  | false => exact .inl ⟨p₂, rfl, hstill⟩
  | true =>
    obtain ⟨p₃, hreport, hrep⟩ := reportUnwanted_ok (hstill.good h)
    obtain ⟨p₄, hconsume, htaken⟩ := hrep.good.consume
    obtain ⟨p₅, hcurrent, hstill₅⟩ := htaken.good.current
    have hgood := (hstill₅.good htaken.good).settled
    have hnext : p₅.settled.place = T.seek (p.place + 1) := by
      have : p₅.settled.place = p₅.place := rfl
      rw [this, hstill₅.place, htaken.next, hrep.place, hstill.place]
    have honward := (hstill.onward_still h).trans ((hrep.onward (hstill.steady h.toSteady)).trans
      (htaken.toOnward.trans (hstill₅.onward_still htaken.good)))
    have heffort := effort_next h hgood hnext
    refine .inr ⟨T.token p₄.place, p₅.settled, ?_, ⟨hgood, honward.callers, honward.precedences, honward.place,
      honward.reports, heffort.1, honward.carries.before rfl rfl⟩, ?_, fun hu => ?_, ?_, heffort.2⟩
    · rw [if_neg (by simp), Run.bind_ok hreport, Run.bind_ok hconsume, Run.bind_ok hcurrent]
      rfl
    · exact (hstill₅.onward_still htaken.good).marked (htaken.toOnward.marked hrep.marked)
    · have hu₃ := (hu.of_stack hstill.stack).of_stack hrep.stack
      exact (htaken.unbegun hrep.recovering hu₃).of_stack hstill₅.stack
    · exact congrArg T.token hstill₅.place.symm

theorem mismatch_ok (h : Good R T p) :
    ∃ e p', mismatch p = .ok e p' ∧ Still R T p p' ∧ Sensible T e := by
  obtain ⟨p', hcurrent, hstill⟩ := h.current
  refine ⟨_, p', by rw [mismatch, Run.bind_ok hcurrent]; rfl, hstill,
    ⟨p.place, h.le, rfl⟩, .inr (.inl ⟨rfl, ?_, ?_⟩)⟩
  · exact (hstill.good h).isState
  · exact (hstill.good h).invoked

theorem behindMissing_ok (h : Good R T p)
    (hedge : ∃ edge, (Grammar.parserNetwork.edges p.core.state.toNat)[0]? = some edge) :
    ∃ s, behindMissing p = .ok s p := by
  obtain ⟨edge, hedge⟩ := hedge
  obtain ⟨γ, hγ, -⟩ := h.invoked.returns
  obtain ⟨hformed, hfits, htarget⟩ := Grammar.parserNetwork_formed
  obtain ⟨s, hlook, -⟩ := Network.look_called hformed hfits
    (htarget _ edge (Array.mem_of_getElem? hedge)) hγ
  refine ⟨s, ?_⟩
  have hne : p.stack.isEmpty = false := by simpa using h.stack_ne_nil
  rw [behindMissing, Run.get_bind, network_eq h.spec, stateAt_eq h.isState, ofFault, pure_bind, hedge]
  simp only [hne, Bool.false_eq_true, if_false, hlook]
  rfl

end Parser

end Throbac
