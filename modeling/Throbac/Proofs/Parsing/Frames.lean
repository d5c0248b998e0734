import Throbac.Proofs.Parsing.Onward

/-!
# Entering and leaving rules

A rule is entered from a state that calls it, or from outside any rule. On leaving it the phrases in
progress are again those of the caller, with the finished phrase added to the innermost of them.
-/
namespace Throbac

open TokenStream (On At Holds)

namespace Parser

/-- A parser that can enter a rule: it stands at the place `i` of its tape, which it may not have
read yet, and its state calls a rule unless no rule is in progress. -/
structure Poised (R : CacheCondition) (T : Tape) (i : Nat) (p : Parser) : Prop extends
    Ready R p where
  located : At T i p.core.stream
  invoked : Invoked Grammar.parserNetwork (p.core.state :: p.callers.invocations)
  recovering : p.recovering = true → p.core.reports ≠ #[]

/-- What is the same before and after a rule is entered or left. -/
structure Kept (T : Tape) (p p' : Parser) : Prop where
  recovering : p'.recovering = p.recovering
  lastErrorIndex : p'.lastErrorIndex = p.lastErrorIndex
  lastErrorStates : p'.lastErrorStates = p.lastErrorStates
  reports : ∃ rs, p'.core.reports = p.core.reports ++ rs ∧ (T.silent = true → rs = #[])

/-- A phrase that was just begun. -/
structure Opened (kind : NodeKind) (invoking : Int) (f : Frame) : Prop where
  kind : f.info.kind = kind
  invoking : f.info.invoking = invoking
  parts : f.parts = []
  failure : f.info.failure = none
  operator : f.info.operator = none

variable {R : CacheCondition} {T : Tape} {p p' p'' : Parser} {i : Nat} {kind : NodeKind} {n : Int}

theorem Shift.kept (h : Shift R T i p p') : Kept T p p' :=
  ⟨h.recovering, h.lastErrorIndex, h.lastErrorStates, h.reports⟩

theorem Kept.effort (h : Kept T p p') (hon : On T p.place p.core.stream)
    (hon' : On T p.place p'.core.stream) : p'.effort T = p.effort T := by
  unfold Parser.effort trials
  rw [place_of_on hon', h.lastErrorIndex, h.lastErrorStates, hon'.index, hon.index]

theorem push_ok (h : Poised R T i p) (hk : 0 ≤ kind.rule ∧ kind.rule < 11)
    (hn : Part.isState 160 n = true) :
    ∃ f p', push kind p.core.state n p = .ok ⟨⟩ p' ∧ Good R T p' ∧ p'.place = i ∧
      p'.stack = f :: p.stack ∧ Opened kind p.core.state f ∧ f.attached = false ∧
      p'.core.state = n ∧ p'.core.precedences = p.core.precedences ∧ Kept T p p' := by
  obtain ⟨s, hm, hon⟩ := h.located.current
  -- the parser once the phrase and the state are there, before it looks at the first token
  let q : Parser := { p with
    stack := { info := { kind, invoking := p.core.state } } :: p.stack
    core := { p.core with state := n } }
  obtain ⟨s', rs, tr, hcurrent, hon', hsilent⟩ := onStream_ok (p := q) h.connected hm hon
  refine ⟨{ info := { kind, invoking := p.core.state, start := some (T.token i) } }, _,
    (Run.bind_ok (hcurrent : current q = _)).trans rfl, ?_, place_of_on hon', rfl,
    ⟨rfl, rfl, rfl, rfl, rfl⟩, rfl, rfl, rfl, rfl, rfl, rfl, rs, rfl, hsilent⟩
  have hplace : s'.index.toNat = i := by
    rw [hon'.index]
    exact Int.toNat_natCast i
  exact
    { h.toReady.observe s' rs tr h.looks with
      rules := List.forall_mem_cons.2 ⟨hk, h.rules⟩
      state := fun _ => hn
      on := by
        show On T s'.index.toNat s'
        rw [hplace]
        exact hon'
      invoked := h.invoked
      recovering := fun hr he => h.recovering hr (Array.append_eq_empty_iff.1 he).1 }

theorem announceEnter_ok (h : p.listeners = none) : announceEnter p = .ok ⟨⟩ p := by
  rw [announceEnter, Run.get_bind, h]
  rfl

theorem announceExit_ok (h : p.listeners = none) : announceExit p = .ok ⟨⟩ p := by
  rw [announceExit, Run.get_bind, h]
  rfl

theorem enterRule_ok (h : Poised R T i p) (hk : 0 ≤ kind.rule ∧ kind.rule < 11)
    (hn : Part.isState 160 n = true) :
    ∃ f p', enterRule kind p.core.state n p = .ok ⟨⟩ p' ∧ Good R T p' ∧ p'.place = i ∧
      p'.stack = f :: p.stack ∧ Opened kind p.core.state f ∧ f.attached = true ∧
      p'.core.precedences = p.core.precedences ∧ Kept T p p' := by
  obtain ⟨f, q, hpush, hgood, hplace, hstack, hopened, _, _, hprec, hkept⟩ := push_ok h hk hn
  have hattach := hgood.restack (map_call_modifyHead (f := fun f => { f with attached := true })
    (fun _ => rfl) q.stack) hgood.isState
  refine ⟨{ f with attached := true }, _, ?_, hattach, hplace, ?_, ⟨hopened.kind,
    hopened.invoking, hopened.parts, hopened.failure, hopened.operator⟩, rfl, hprec, { hkept with }⟩
  · rw [enterRule, Run.bind_ok hpush, Run.get_bind, if_pos hgood.building,
      Run.bind_ok (modifyTop_ok hgood.stack_ne_nil _)]
    exact announceEnter_ok hattach.listeners
  · simp [hstack]

theorem enterRecursion_ok (h : Poised R T i p) (hk : 0 ≤ kind.rule ∧ kind.rule < 11)
    (hn : Part.isState 160 n = true) {q : Int} (hq : q ∈ precedenceLevels) :
    ∃ f p', enterRecursion kind p.core.state n q p = .ok ⟨⟩ p' ∧ Good R T p' ∧ p'.place = i ∧
      p'.stack = f :: p.stack ∧ Opened kind p.core.state f ∧ f.attached = false ∧
      p'.core.precedences = q :: p.core.precedences ∧ Kept T p p' := by
  have hp : Poised R T i { p with
      core := { p.core with precedences := q :: p.core.precedences } } :=
    { h with precedences := ⟨List.cons_ne_nil _ _, List.forall_mem_cons.2 ⟨hq, h.precedences.2⟩⟩ }
  obtain ⟨f, p', hpush, hgood, hplace, hstack, hopened, hattached, _, hprec, hkept⟩ := push_ok hp hk hn
  refine ⟨f, p', ?_, hgood, hplace, hstack, hopened, hattached, hprec, { hkept with }⟩
  rw [enterRecursion, Run.modify_bind]
  exact (Run.bind_ok hpush).trans (announceEnter_ok hgood.listeners)

def stopAt (stop : Option Token) (f : Frame) : Frame := { f with info := { f.info with stop } }

theorem leaves_stopAt (stop : Option Token) (f : Frame) :
    (stopAt stop f).close.leaves = f.close.leaves := by
  rw [leaves_close, leaves_close]
  rfl

theorem markStop_ok (h : Good R T p) :
    ∃ stop p', markStop p = .ok ⟨⟩ p' ∧ Good R T p' ∧ Onward R T p p' ∧ p'.place = p.place ∧
      p'.stack = p.stack.modifyHead (stopAt stop) ∧ p'.core.state = p.core.state ∧ Kept T p p' := by
  obtain ⟨stop, q, hback, hstill⟩ := h.lookAhead_back
  have hq := hstill.good h
  have hmark := hq.modifyTop (f := stopAt stop) (fun _ => rfl) (fun _ => rfl) fun _ => rfl
  refine ⟨stop, _, ?_, hmark.good, (hstill.onward_still h).trans hmark, hstill.place, ?_,
    hstill.state, { hstill.kept with }⟩
  · rw [markStop, Run.bind_ok hback]
    exact modifyTop_ok hq.stack_ne_nil _
  · rw [← hstill.stack]

/-- The parser after a rule was left. -/
structure Left (R : CacheCondition) (T : Tape) (p p' : Parser) : Prop extends Kept T p p' where
  ready : Ready R p'
  on : On T p.place p'.core.stream
  callers : p'.callers = p.callers.tail

theorem Left.clean (h : Left R T p p') (hc : p'.core.reports = #[]) : p.core.reports = #[] := by
  obtain ⟨rs, hrs, _⟩ := h.reports
  rw [hrs, Array.append_eq_empty_iff] at hc
  exact hc.1

theorem isState_of_invoked {c : Int} {cs : List Int}
    (h : Invoked Grammar.parserNetwork (c :: cs)) (hne : cs ≠ []) : Part.isState 160 c = true := by
  cases h with
  | outermost _ => exact absurd rfl hne
  | call hlt _ _ _ =>
    rw [Grammar.parserNetwork_size] at hlt
    simp only [Part.isState, Bool.and_eq_true, decide_eq_true_eq]
    omega

theorem pop_ok {f : Frame} {rest : List Frame} (hs : p.stack = f :: rest) :
    pop p = .ok f.close { p with
      stack := if f.attached then rest.modifyHead (·.add f.close) else rest } := by
  rw [pop, Run.get_bind, hs]
  obtain ⟨info, parts, attached⟩ := f
  cases rest <;> cases attached <;> rfl

theorem exitRule_ok (h : Good R T p) {f : Frame} {rest : List Frame} (hs : p.stack = f :: rest) :
    ∃ stop p', exitRule p = .ok (stopAt stop f).close p' ∧ Left R T p p' ∧
      p'.core.precedences = p.core.precedences ∧
      p'.stack = (if f.attached then rest.modifyHead (·.add (stopAt stop f).close) else rest) := by
  obtain ⟨stop, q, hmark, hgood, honward, hplace, hstack, hstate, hkept⟩ := markStop_ok h
  rw [hs] at hstack
  have htop : top q = .ok (stopAt stop f) q := by
    rw [top, Run.get_bind, hstack]
    rfl
  let joined := if f.attached then rest.modifyHead (·.add (stopAt stop f).close) else rest
  have hrest : joined.map Frame.call = rest.map Frame.call := by
    unfold joined
    split
    · exact map_call_modifyHead (f := (·.add (stopAt stop f).close)) (fun _ => rfl) rest
    · rfl
  have hcallers : p.callers = f.call :: rest.map Frame.call := by rw [callers_eq, hs, List.map_cons]
  -- before the phrase is taken off the state is that of the caller again
  let q' : Parser := { q with core := { q.core with state := f.info.invoking } }
  have hpop : pop q' = .ok (stopAt stop f).close { q' with stack := joined } := pop_ok hstack
  refine ⟨stop, { q' with stack := joined }, ?_, ⟨{ hkept with }, ?_, ?_, ?_⟩, honward.precedences,
    rfl⟩
  · rw [exitRule, Run.bind_ok hmark, Run.bind_ok (announceExit_ok hgood.listeners), Run.bind_ok htop]
    exact (Run.modify_bind _ _ _).trans hpop
  · refine { hgood with rules := ?_, state := fun hne => ?_ }
    · rw [callers_eq]
      intro c hc
      refine h.rules c ?_
      rw [hcallers]
      exact List.mem_cons_of_mem _ (hrest ▸ hc)
    · have hinvoked : Invoked Grammar.parserNetwork
          (f.info.invoking :: Callers.invocations (rest.map Frame.call)) := by
        have := h.invoked
        rwa [hcallers] at this
      refine isState_of_invoked hinvoked fun hnil => hne ?_
      have hnil : rest = [] := by simpa [Callers.invocations] using hnil
      have := congrArg List.length hrest
      simpa [hnil] using this
  · rw [← hplace]
    exact hgood.on
  · rw [callers_eq, hcallers]
    exact hrest

theorem treeAt_top {f : Frame} {rest : List Frame} (hs : p.stack = f :: rest) :
    p.treeAt (rest.length + 1) = some f.close := by
  rw [treeAt, hs, List.length_cons, Nat.add_sub_cancel_left, List.take_succ_cons, List.take_zero]
  rfl

/-- The phrase of a rule that may start with itself, which stands at the top, becomes a part of the
phrase below it. -/
theorem exitRecursion_ok (h : Good R T p) {f : Frame} {rest : List Frame} {q : Int} {qs : List Int}
    (hs : p.stack = f :: rest) (hq : p.core.precedences = q :: qs) (hqs : qs ≠ []) :
    ∃ stop p', exitRecursion rest.length p = .ok (some (stopAt stop f).close) p' ∧ Left R T p p' ∧
      p'.core.precedences = qs ∧ p'.stack = rest.modifyHead (·.add (stopAt stop f).close) := by
  have htail : p.core.precedences.tail ≠ [] ∧ ∀ x ∈ p.core.precedences.tail, x ∈ precedenceLevels := by
    refine ⟨by rw [hq]; exact hqs, fun x hx => h.precedences.2 x (List.mem_of_mem_tail hx)⟩
  have h₁ : Good R T { p with core := { p.core with precedences := p.core.precedences.tail } } :=
    { h with precedences := htail }
  obtain ⟨stop, p₂, hmark, hgood, honward, hplace, hstack, _, hkept⟩ := markStop_ok h₁
  replace hstack : p₂.stack = stopAt stop f :: rest := by rw [hstack, hs]; rfl
  have htop : top p₂ = .ok (stopAt stop f) p₂ := by
    rw [top, Run.get_bind, hstack]
    rfl
  have hrest : (rest.modifyHead (·.add (stopAt stop f).close)).map Frame.call = rest.map Frame.call :=
    map_call_modifyHead (f := (·.add (stopAt stop f).close)) (fun _ => rfl) rest
  have hcallers : p.callers = f.call :: rest.map Frame.call := by rw [callers_eq, hs, List.map_cons]
  refine ⟨stop, { p₂ with stack := rest.modifyHead (·.add (stopAt stop f).close) }, ?_,
    ⟨{ hkept with }, ?_, ?_, ?_⟩, ?_, rfl⟩
  · have hdrop : p₂.stack.drop (p₂.stack.length - rest.length) = rest := by
      rw [hstack, List.length_cons, Nat.add_sub_cancel_left]
      rfl
    rw [exitRecursion, Run.modify_bind, Run.bind_ok hmark, Run.get_bind, treeAt_top hstack,
      Run.bind_ok htop, Run.get_bind, if_neg (by simp [hgood.listeners])]
    dsimp only
    rw [Run.get_bind, hdrop, hgood.building]
    cases rest <;> rfl
  · refine { hgood with rules := ?_, state := fun _ => hgood.isState }
    rw [callers_eq]
    intro c hc
    refine h.rules c ?_
    rw [hcallers]
    exact List.mem_cons_of_mem _ (hrest ▸ hc)
  · have : p₂.place = p.place := hplace
    rw [← this]
    exact hgood.on
  · rw [callers_eq, hcallers]
    exact hrest
  · rw [honward.precedences]
    exact congrArg List.tail hq

theorem wrap_ok (h : Good R T p) {f : Frame} {rest : List Frame} {outer : Int}
    (hs : p.stack = f :: rest) (hcall : (⟨kind.rule, outer⟩ : Call) = f.call)
    (ha : f.attached = false) :
    ∃ g t p', wrap kind n outer (rest.length + 1) p = .ok ⟨⟩ p' ∧ Onward R T p p' ∧
      p'.place = p.place ∧ p'.stack = g.add t :: rest ∧ Opened kind outer g ∧ g.attached = false ∧
      (∃ stop, t = { stopAt stop f with info := { (stopAt stop f).info with invoking := n } }.close) ∧
      Kept T p p' := by
  -- for a moment the phrase is invoked from another state, so it is no parser in good order
  let q : Parser := { p with
    stack := { f with info := { f.info with invoking := n } } :: rest }
  have hinvoking : modifyTop (fun f => { f with info := { f.info with invoking := n } }) p =
      .ok ⟨⟩ q := by
    rw [modifyTop_ok h.stack_ne_nil, hs]
    rfl
  obtain ⟨stop, hm⟩ := h.on.lookAhead_back
  obtain ⟨s, rs, tr, hrun, hon, hsilent⟩ := onStream_ok (p := q) h.connected hm h.on
  have hstill : Still R T p { p with
      core := { p.core with stream := s, reports := p.core.reports ++ rs, trace := tr } } :=
    ⟨h.toReady.observe _ _ _ h.looks, hon, rfl, rfl, rfl, rfl, rfl, rfl, rs, rfl, hsilent⟩
  let inner : Frame := { stopAt stop f with info := { (stopAt stop f).info with invoking := n } }
  let g : Frame := { info := { kind, invoking := outer, start := f.info.start } }
  have hcalls : (g.add inner.close :: rest).map Frame.call = p.stack.map Frame.call := by
    rw [hs, List.map_cons, List.map_cons]
    exact congrArg (· :: _) hcall
  have hchange := (hstill.good h).change (s := g.add inner.close :: rest) (n := p.core.state)
    hcalls h.isState
    (.of_leaves (hstill.stack.trans hs) rfl ha.symm (by simp [leaves_close, inner, stopAt, g, Frame.add]) rfl)
  refine ⟨g, inner.close, _, ?_, (hstill.onward_still h).trans hchange, hstill.place, rfl,
    ⟨rfl, rfl, rfl, rfl, rfl⟩, rfl, ⟨stop, rfl⟩, { hstill.kept with }⟩
  let q' : Parser := { q with
    stack := inner :: rest
    core := { p.core with stream := s, reports := p.core.reports ++ rs, trace := tr } }
  have hmark : markStop q = .ok ⟨⟩ q' := by
    rw [markStop, Run.bind_ok hrun]
    exact modifyTop_ok (List.cons_ne_nil _ _) _
  have htop : top q' = .ok inner q' := rfl
  have hdrop : q'.stack.drop (q'.stack.length + 1 - (rest.length + 1)) = rest := by
    rw [Nat.add_sub_add_right, show q'.stack.length = rest.length + 1 from rfl,
      Nat.add_sub_cancel_left]
    rfl
  rw [wrap, Run.bind_ok hinvoking, Run.bind_ok hmark, Run.bind_ok htop, Run.get_bind]
  dsimp only
  rw [if_pos (show q'.building = true from h.building), Run.modify_bind, hdrop]
  exact announceEnter_ok h.listeners

end Parser

end Throbac
