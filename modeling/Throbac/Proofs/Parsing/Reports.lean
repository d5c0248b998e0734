import Throbac.Proofs.Parsing.Onward

/-!
# Reporting errors

Every error that a parser of the language raises can be worded, and after it was reported the log is
not empty. While the parser recovers it reports nothing more.
-/
namespace Throbac

theorem Sequence.exists_arrayAt {α : Type} (xs : Array α) {i : Int} (h0 : -(xs.size : Int) ≤ i)
    (h : i < xs.size) : ∃ x, arrayAt xs i = .ok x := by
  obtain ⟨k, hk, hlt⟩ : ∃ k, resolve? xs.size i = some k ∧ k < xs.size := by
    unfold resolve?
    split <;> exact ⟨_, if_pos (by omega), by omega⟩
  exact ⟨xs[k], by simp only [arrayAt, arrayAt?, hk, Option.bind_some, Array.getElem?_eq_getElem hlt]⟩

namespace Parser

/-- An error of a sort that a parser of the language raises, with all that its report needs. -/
structure Sensible (T : Tape) (e : RecognitionError) : Prop where
  offending : ∃ i ≤ T.last, e.offending = some (T.token i)
  cause :
    (e.cause = .noViable ∧ ∃ i ≤ T.last, e.start = some (T.token i)) ∨
    (e.cause = .mismatch ∧ Part.isState 160 e.state = true ∧
      Invoked Grammar.parserNetwork e.callers.invocations) ∨
    (e.cause = .failedPredicate ∧ ∃ m, e.message = some m)

/-- An error was reported, now or before; all else is as it was. -/
structure Reported (R : CacheCondition) (T : Tape) (p p' : Parser) : Prop where
  good : Good R T p'
  place : p'.place = p.place
  stack : p'.stack = p.stack
  state : p'.core.state = p.core.state
  precedences : p'.core.precedences = p.core.precedences
  recovering : p'.recovering = true
  lastErrorIndex : p'.lastErrorIndex = p.lastErrorIndex
  lastErrorStates : p'.lastErrorStates = p.lastErrorStates
  reports : ∃ rs, p'.core.reports = p.core.reports ++ rs

variable {R : CacheCondition} {T : Tape} {p p' p'' : Parser} {e : RecognitionError}

namespace Reported

theorem marked (h : Reported R T p p') : p'.core.reports ≠ #[] := h.good.recovering h.recovering

theorem onward (h : Reported R T p p') (hg : Steady R T p) : Onward R T p p' := by
  refine ⟨h.good, ?_, h.precedences, Nat.le_of_eq h.place.symm, h.reports, ?_,
    .of_stack hg.stack_ne_nil h.stack h.place⟩
  · rw [callers_eq, h.stack, callers_eq]
  · refine effort_le_of_trials h.place (Nat.le_of_eq ?_)
    unfold trials
    rw [h.lastErrorIndex, h.lastErrorStates, h.good.on.index, hg.on.index, h.place]

theorem refl (h : Good R T p) (hr : p.recovering = true) : Reported R T p p :=
  ⟨h, rfl, rfl, rfl, rfl, hr, rfl, rfl, #[], by simp⟩

theorem after (h : Reported R T p' p'') (hs : Still R T p p') : Reported R T p p'' := by
  refine ⟨h.good, h.place.trans hs.place, h.stack.trans hs.stack, h.state.trans hs.state,
    h.precedences.trans hs.precedences, h.recovering, h.lastErrorIndex.trans hs.lastErrorIndex,
    h.lastErrorStates.trans hs.lastErrorStates, ?_⟩
  obtain ⟨rs, hrs, _⟩ := hs.reports
  obtain ⟨rs', hrs'⟩ := h.reports
  exact ⟨rs ++ rs', by rw [hrs', hrs, Array.append_assoc]⟩

end Reported

theorem notify_ok (h : Steady R T p) (hr : p.recovering = true) (message : String) (t : Token)
    (cause : Option ErrorCause) :
    ∃ p', notify message (some t) cause p = .ok ⟨⟩ p' ∧ Reported R T p p' := by
  refine ⟨_, rfl, ?_, rfl, rfl, rfl, rfl, hr, rfl, rfl, ?_⟩
  · have hne : (if p.core.logging then p.core.reports.push
        (.syntaxError t.line t.column message (some t) cause) else p.core.reports) ≠ #[] := by
      rw [h.logging]
      simp
    exact { h with recovering := fun _ => hne }
  · refine ⟨#[.syntaxError t.line t.column message (some t) cause], ?_⟩
    show (if p.core.logging then _ else _) = _
    rw [h.logging]
    simp

theorem report_with (h : Good R T p) {m : ParseM Unit}
    (hm : ∀ q, Steady R T q → q.recovering = true → ∃ p', m q = .ok ⟨⟩ p' ∧ Reported R T q p') :
    ∃ p', (if p.recovering = true then pure () else do
        modify ({ · with recovering := true })
        m : ParseM Unit) p = .ok ⟨⟩ p' ∧ Reported R T p p' := by
  by_cases hr : p.recovering = true
  · exact ⟨p, by rw [if_pos hr]; rfl, .refl h hr⟩
  · obtain ⟨p', hrun, hrep⟩ := hm { p with recovering := true } { h with } rfl
    exact ⟨p', by rw [if_neg hr, Run.modify_bind, hrun], { hrep with }⟩

theorem describe_notify {describe : ParseM String} {text : String} {t : Token}
    {cause : Option ErrorCause} (h : Steady R T p) (hr : p.recovering = true)
    (hd : describe p = .ok text p') (hs : Still R T p p') :
    ∃ p'', (do notify (← describe) (some t) cause) p = .ok ⟨⟩ p'' ∧ Reported R T p p'' := by
  obtain ⟨p'', hnotify, hrep⟩ := notify_ok (hs.steady h) (hs.recovering.trans hr) text t cause
  exact ⟨p'', by rw [Run.bind_ok hd, hnotify], hrep.after hs⟩

theorem describeNoViable_ok (h : Steady R T p) (hT : T.Spelled) {a b : Nat} (ha : a ≤ T.last)
    (hb : b ≤ T.last) (hs : e.start = some (T.token a)) (ho : e.offending = some (T.token b)) :
    ∃ text p', describeNoViable e p = .ok text p' ∧ Still R T p p' := by
  simp only [describeNoViable, hs, ho, pure_bind]
  cases heof : (T.token a).isEof with
  | true => exact ⟨_, p, rfl, h.still⟩
  | false =>
    obtain ⟨text, s, hm, hon⟩ := h.on.textBetween hT ha hb
    obtain ⟨p', hrun, hstill⟩ := h.reads hm hon
    exact ⟨_, p', by rw [if_neg (by simp), Run.bind_ok hrun]; rfl, hstill⟩

theorem describeMismatch_ok (h : Steady R T p) (hn : Part.isState 160 e.state = true)
    (hcs : Invoked Grammar.parserNetwork e.callers.invocations) :
    ∃ text p', describeMismatch e p = .ok text p' ∧ Still R T p p' := by
  obtain ⟨s, k, p', hrun, hstill, hs⟩ := h.expectedAt hn hcs
  obtain ⟨text, htext⟩ := showSymbols_ok p' hs
  exact ⟨_, p', by rw [describeMismatch, Run.bind_ok hrun, Run.bind_ok htext]; rfl, hstill⟩

theorem topRuleName_ok (h : Steady R T p) : ∃ name, topRuleName p = .ok name p := by
  obtain ⟨f, rest, hstack⟩ := List.exists_cons_of_ne_nil h.stack_ne_nil
  have hrule := h.rules f.call (by rw [callers_eq, hstack]; exact List.mem_cons_self)
  have hnames : p.core.spec.ruleNames = Grammar.ruleNames := by rw [h.spec, Grammar.parserSpec]
  obtain ⟨name, hname⟩ := Sequence.exists_arrayAt Grammar.ruleNames
    (i := f.call.rule) (Int.le_trans (by decide) hrule.1) hrule.2
  have htop : top p = .ok f p := by
    rw [top, Run.get_bind, hstack]
    rfl
  refine ⟨name, ?_⟩
  rw [topRuleName, Run.get_bind, Run.bind_ok htop, hnames, show f.info.kind.rule = f.call.rule from rfl,
    hname]
  rfl

theorem describeFailed_ok (h : Steady R T p) {m : String} (hm : e.message = some m) :
    ∃ text p', describeFailed e p = .ok text p' ∧ Still R T p p' := by
  obtain ⟨name, hname⟩ := topRuleName_ok h
  exact ⟨_, p, by rw [describeFailed, Run.bind_ok hname, hm]; rfl, h.still⟩

theorem report_ok (h : Good R T p) (hT : T.Spelled) (he : Sensible T e) :
    ∃ p', report e p = .ok ⟨⟩ p' ∧ Reported R T p p' := by
  obtain ⟨b, hb, ho⟩ := he.offending
  rw [report, Run.get_bind, ho]
  refine report_with h fun q hq hr => ?_
  rcases he.cause with ⟨hc, a, ha, hs⟩ | ⟨hc, hn, hcs⟩ | ⟨hc, m, hm⟩
  · obtain ⟨text, q', hd, hstill⟩ := describeNoViable_ok hq hT ha hb hs ho
    simp only [hc]
    exact describe_notify hq hr hd hstill
  · obtain ⟨text, q', hd, hstill⟩ := describeMismatch_ok hq hn hcs
    simp only [hc]
    exact describe_notify hq hr hd hstill
  · obtain ⟨text, q', hd, hstill⟩ := describeFailed_ok hq hm
    simp only [hc]
    exact describe_notify hq hr hd hstill

theorem notify_expected (h : Steady R T p) (hr : p.recovering = true)
    (words : Token → String → String) :
    ∃ p', (do
      let t ← current
      let expected ← showSymbols (← expected)
      notify (words t expected) (some t) none) p = .ok ⟨⟩ p' ∧ Reported R T p p' := by
  obtain ⟨p₁, hcurrent, hstill₁⟩ := h.current
  obtain ⟨s, p₂, hexpected, hstill₂, hs⟩ := (hstill₁.steady h).expected
  obtain ⟨text, htext⟩ := showSymbols_ok p₂ hs
  have hstill := hstill₁.still hstill₂
  obtain ⟨p', hnotify, hrep⟩ := notify_ok (hstill.steady h) (hstill.recovering.trans hr)
    (words (T.token p.place) text) (T.token p.place) none
  refine ⟨p', ?_, hrep.after hstill⟩
  rw [Run.bind_ok hcurrent, Run.bind_ok hexpected, Run.bind_ok htext, hnotify]

theorem reportUnwanted_ok (h : Good R T p) :
    ∃ p', reportUnwanted p = .ok ⟨⟩ p' ∧ Reported R T p p' := by
  rw [reportUnwanted, Run.get_bind]
  exact report_with h fun q hq hr => notify_expected hq hr _

theorem reportMissing_ok (h : Good R T p) :
    ∃ p', reportMissing p = .ok ⟨⟩ p' ∧ Reported R T p p' := by
  rw [reportMissing, Run.get_bind]
  exact report_with h fun q hq hr => notify_expected hq hr _

end Parser

end Throbac
