import Throbac.Proofs.Parsing.Recovery

/-!
# Single steps of a rule

The checks before a choice and the matching of a token, on any input. A step after which the log is
still empty has done no more than it should: a check has changed nothing, and a match has taken just
the token that was asked for.
-/
namespace Throbac

theorem LookTable.Named.replace {table : LookTable} (h : table.Named) (n : Nat) {s : SymbolSet}
    (hs : s.Named) : (table.replace n s).Named := by
  intro e he
  obtain ⟨e', he', rfl⟩ := List.mem_map.1 he
  split
  · exact hs
  · exact h e' he'

namespace Parser

variable {R : CacheCondition} {T : Tape} {p p' p'' : Parser} {F : Parser → Prop}

/-- An error that leaves the parser within its rules. -/
def Failed (R : CacheCondition) (T : Tape) (p : Parser) (e : RecognitionError) (p' : Parser) : Prop :=
  Onward R T p p' ∧ Sensible T e

theorem Failed.after {e : RecognitionError} (h : Failed R T p' e p'') (ho : Onward R T p p') :
    Failed R T p e p'' :=
  ⟨ho.trans h.1, h.2⟩

theorem Shift.failed {e : RecognitionError} (h : Still R T p p') (hg : Good R T p)
    (he : Sensible T e) : Failed R T p e p' :=
  ⟨h.onward_still hg, he⟩

theorem throw_mismatch {α : Type} (h : Good R T p) {Q : α → Parser → Prop} :
    Ends F (do throw (.recognition (← mismatch))) p Q (Failed R T p) := by
  obtain ⟨e, p', hrun, hstill, he⟩ := mismatch_ok h
  exact .of_recognition (by rw [Run.bind_ok hrun]; rfl) (hstill.failed h he)

theorem getD_named {s : SymbolSet} (hs : s.Named) : Symbol.epsilon ≤ s.getD 0 := by
  unfold SymbolSet.getD
  rw [if_neg (by decide)]
  cases hx : s.toList[(0 : Int).toNat]? with
  | none => decide
  | some x =>
    exact hs.le (SymbolSet.mem_toList.1 (List.mem_of_getElem? hx))

theorem missingText_ok (h : Steady R T p) {x : Int} (hx : Symbol.epsilon ≤ x) :
    ∃ name, missingText x p = .ok ("<missing " ++ name ++ ">") p := by
  have hv : p.core.spec.vocabulary = Grammar.vocabulary := by rw [h.spec, Grammar.parserSpec]
  have hlow : ∀ {xs : Array String}, 2 ≤ xs.size → x < xs.size →
      ∃ name, Sequence.arrayAt xs x = .ok name := by
    intro xs hsize hlt
    have : Symbol.epsilon = -2 := rfl
    exact Sequence.exists_arrayAt _ (by omega) hlt
  rw [missingText]
  by_cases heof : x = Symbol.eof
  · exact ⟨"EOF", by rw [if_pos heof]; rfl⟩
  · rw [if_neg heof, Run.get_bind, hv]
    by_cases hl : x < Grammar.vocabulary.literal.size
    · obtain ⟨name, hname⟩ := hlow (by decide) hl
      exact ⟨_, by rw [if_pos hl, hname]; rfl⟩
    · by_cases hsym : x < Grammar.vocabulary.symbolic.size
      · obtain ⟨name, hname⟩ := hlow (by decide) hsym
        exact ⟨_, by rw [if_neg hl, if_pos hsym, hname]; rfl⟩
      · exact ⟨_, by rw [if_neg hl, if_neg hsym]; rfl⟩

theorem missingToken_ok (h : Good R T p) :
    ∃ t p', missingToken p = .ok t p' ∧ Still R T p p' ∧ t.MadeUp := by
  obtain ⟨p₁, hcurrent, hstill₁⟩ := h.current
  obtain ⟨s, p₂, hexpected, hstill₂, hs⟩ := (hstill₁.good h).expected
  have hstill := hstill₁.still hstill₂
  obtain ⟨text, htext⟩ := missingText_ok (hstill.steady h.toSteady) (getD_named hs)
  obtain ⟨before, p₃, hback, hstill₃⟩ := (hstill.good h).lookAhead_back
  exact ⟨_, p₃, (Run.bind_ok hcurrent).trans ((Run.bind_ok hexpected).trans
    ((Run.bind_ok htext).trans (Run.bind_ok hback))), hstill.still hstill₃, rfl, text, rfl⟩

theorem mend_ends (h : Good R T p)
    (hedge : ∃ edge, (Grammar.parserNetwork.edges p.core.state.toNat)[0]? = some edge) :
    Ends F mend p (fun t p' => Onward R T p p' ∧ p'.core.reports ≠ #[] ∧
      (t.MadeUp ∨ t.index ≠ -1)) (Failed R T p) := by
  rw [mend]
  refine .bind_ok rfl ?_
  rw [h.bails]
  rcases dropToken_ok h with ⟨p₁, hdrop, hstill⟩ | ⟨t, p₁, hdrop, honward, hmarked, _, ht, _⟩
  · refine .bind_ok hdrop ?_
    have h₁ := hstill.good h
    obtain ⟨p₂, hsymbol, hstill₂⟩ := h₁.symbol_one
    have h₂ := hstill₂.good h₁
    have hstill' := hstill.still hstill₂
    have honward := hstill'.onward_still h
    obtain ⟨s, hbehind⟩ := behindMissing_ok h₂
      (by rw [hstill₂.state, hstill.state]; exact hedge)
    refine .bind_ok hsymbol (.bind_ok hbehind ?_)
    split
    · obtain ⟨p₃, hreport, hrep⟩ := reportMissing_ok h₂
      obtain ⟨t, p', htoken, hstill₄, hmade⟩ := missingToken_ok hrep.good
      refine .bind_ok hreport (.of_ok htoken ⟨?_, ?_, .inl hmade⟩)
      · exact honward.trans ((hrep.onward h₂.toSteady).trans (hstill₄.onward_still hrep.good))
      · exact (hstill₄.onward_still hrep.good).marked hrep.marked
    · exact (throw_mismatch h₂).mono (fun _ _ hq => hq) fun _ _ hf => hf.after honward
  · refine .bind_ok hdrop ?_
    obtain ⟨p₂, hconsume, htaken⟩ := honward.good.consume
    refine .of_ok (Run.bind_ok hconsume) ⟨honward.trans htaken.toOnward,
      htaken.toOnward.marked hmarked, .inr ?_⟩
    rw [ht, Tape.index_token honward.good.le]
    omega

theorem resume_ok (h : Good R T p) :
    ∃ p', resume p = .ok ⟨⟩ p' ∧ Onward R T p p' ∧ p'.core.reports ≠ #[] ∧
      (Unbegun p → Unbegun p') := by
  obtain ⟨p₁, hreport, hrep⟩ := reportUnwanted_ok h
  obtain ⟨s, k, p₂, hexpected, hstill₂, hs⟩ := hrep.good.expectedFrom
  have h₂ := hstill₂.good hrep.good
  obtain ⟨t, p₃, hset, hstill₃, ht⟩ := recoverySet_ok h₂.toSteady
  have h₃ := hstill₃.good h₂
  have hstill := hstill₂.still hstill₃
  have honward := (hrep.onward h.toSteady).trans (hstill.onward_still hrep.good)
  have hmarked := hstill.onward_still hrep.good |>.marked hrep.marked
  have hrest : ∀ p₄ : Parser, Onward R T p p₄ → p₄.core.reports ≠ #[] → p₄.stack = p₃.stack →
      p₄.recovering = true → ∃ p', consumeUntil (s.union t) p₄ = .ok ⟨⟩ p' ∧ Onward R T p p' ∧
        p'.core.reports ≠ #[] ∧ (Unbegun p → Unbegun p') := by
    intro p₄ ho hm hs hr
    obtain ⟨p', hskip, hskipped⟩ := consumeUntil_ok (s.union t) ho.good
    exact ⟨p', hskip, ho.trans hskipped.toOnward, hskipped.toOnward.marked hm,
      fun hu => hskipped.unbegun hr (hu.of_stack (hs.trans (hstill.stack.trans hrep.stack)))⟩
  have hrecovering := hstill.recovering.trans hrep.recovering
  rw [resume, Run.bind_ok hreport, Run.bind_ok hexpected]
  dsimp only
  rw [Run.bind_ok hset]
  cases k with
  | none => exact hrest p₃ honward hmarked rfl hrecovering
  | some n =>
    have hgood : Good R T { p₃ with core := { p₃.core with
        looks := p₃.core.looks.replace n (s.union t) } } :=
      { h₃ with looks := h₃.looks.replace n (hs.union ht) }
    exact hrest _ { honward with good := hgood, carries := honward.carries.before rfl rfl } hmarked rfl
      hrecovering

/-- What a check before a choice or a loop leaves behind. -/
structure Checked (R : CacheCondition) (T : Tape) (p p' : Parser) : Prop extends Onward R T p p' where
  still : p'.core.reports = #[] → Still R T p p'
  unbegun : Unbegun p → Unbegun p'

theorem Shift.checked (h : Still R T p p') (hg : Good R T p) : Checked R T p p' :=
  ⟨h.onward_still hg, fun _ => h, fun hu => hu.of_stack h.stack⟩

theorem Shift.checked_of_marked (hs : Still R T p p') (hg : Good R T p) (ho : Onward R T p' p'')
    (hm : p''.core.reports ≠ #[]) (hu : Unbegun p' → Unbegun p'') : Checked R T p p'' :=
  ⟨(hs.onward_still hg).trans ho, fun he => absurd he hm, fun hp => hu (hp.of_stack hs.stack)⟩

theorem sync_ends (h : Good R T p) :
    Ends F sync p (fun _ p' => Checked R T p p') (Failed R T p) := by
  rw [sync]
  refine .bind_ok rfl ?_
  split
  · exact .pure (h.still.checked h)
  obtain ⟨p₁, hsymbol, hstill₁⟩ := h.symbol_one
  obtain ⟨s, p₂, hnext, hstill₂, _⟩ := (hstill₁.good h).next (toNat_lt_size h.isState)
  have hstill := hstill₁.still hstill₂
  have h₂ := hstill.good h
  have hchecked : Checked R T p p₂ := hstill.checked h
  rw [network_eq h.spec, stateAt_eq h.isState]
  refine .bind_ok rfl (.bind_ok hsymbol (.bind_ok hnext ?_))
  split
  · exact .pure hchecked
  -- what is done depends on the sort of the state
  have hblock : Ends F (do if (← dropToken).isNone then throw (.recognition (← mismatch))) p₂
      (fun _ p' => Checked R T p p') (Failed R T p) := by
    rcases dropToken_ok h₂ with
      ⟨p₃, hdrop, hstill₃⟩ | ⟨t, p₃, hdrop, honward, hmarked, hunbegun, _⟩
    · refine .bind_ok hdrop ?_
      have hstill' := hstill.still hstill₃
      exact (throw_mismatch (hstill'.good h)).mono (fun _ _ hq => hq)
        fun _ _ hf => hf.after (hstill'.onward_still h)
    · exact .bind_ok hdrop (.pure (hstill.checked_of_marked h honward hmarked hunbegun))
  have hloop : Ends F resume p₂ (fun _ p' => Checked R T p p') (Failed R T p) := by
    obtain ⟨p₃, hresume, honward, hmarked, hunbegun⟩ := resume_ok h₂
    exact .of_ok hresume (hstill.checked_of_marked h honward hmarked hunbegun)
  have hpass : Ends F (pure ()) p₂ (fun _ p' => Checked R T p p') (Failed R T p) := .pure hchecked
  cases (Grammar.parserNetwork.state p.core.state.toNat).kind <;> assumption

def plainLeaf (T : Tape) (p : Parser) : ParseTree := .leaf (T.token p.place) false

theorem matchType_ok (h : Good R T p) {x : Int} (hx : (T.token p.place).type = x) :
    ∃ p', matchType x p = .ok (T.token p.place) p' ∧ Matched R T p p' ∧
      p'.stack = p.stack.modifyHead (·.add (plainLeaf T p)) := by
  obtain ⟨p₁, hcurrent, hstill⟩ := h.current
  obtain ⟨p', hconsume, hmatched, hstack⟩ := settle_consume (hstill.good h)
  rw [hstill.place] at hconsume
  refine ⟨p', ?_, ⟨(hstill.onward_still h).trans hmatched.toOnward, ?_, ?_, hmatched.recovering, ?_⟩,
    ?_⟩
  · rw [matchType, matchWhere, Run.bind_ok hcurrent, if_pos (by simpa using hx)]
    exact (Run.bind_ok rfl).trans (Run.bind_ok hconsume)
  · rw [hmatched.next, hstill.place]
  · rw [hmatched.state, hstill.state]
  · intro hs
    rw [hmatched.silent hs, hstill.silent hs]
  · rw [hstack, hstill.stack, plainLeaf, hstill.place]

theorem addMadeUp_ok (h : Good R T p) {t : Token} (ht : t.MadeUp ∨ t.index ≠ -1) :
    ∃ p', addMadeUp t p = .ok ⟨⟩ p' ∧ Onward R T p p' := by
  rw [addMadeUp, Run.get_bind]
  split
  · next hmade =>
    have hcalls := map_call_modifyHead (f := (·.add (.leaf t true))) (fun _ => rfl) p.stack
    refine ⟨_, modifyTop_ok h.stack_ne_nil _,
      h.change hcalls h.isState (.of_add h.stack_ne_nil rfl ?_)⟩
    exact .extra (.inr (ht.resolve_right fun hne => hne hmade.2)) .nil
  · exact ⟨p, rfl, .refl h⟩

theorem matchType_ends (h : Good R T p) (x : Int)
    (hedge : ∃ edge, (Grammar.parserNetwork.edges p.core.state.toNat)[0]? = some edge) :
    Ends F (matchType x) p (fun _ p' => Onward R T p p' ∧
      (((T.token p.place).type = x ∧ Matched R T p p' ∧
        p'.stack = p.stack.modifyHead (·.add (plainLeaf T p))) ∨
      (T.token p.place).type ≠ x ∧ p'.core.reports ≠ #[])) (Failed R T p) := by
  by_cases hx : (T.token p.place).type = x
  · obtain ⟨p', hrun, hmatched, hstack⟩ := matchType_ok h hx
    exact .of_ok hrun ⟨hmatched.toOnward, .inl ⟨hx, hmatched, hstack⟩⟩
  · obtain ⟨p₁, hcurrent, hstill⟩ := h.current
    rw [matchType, matchWhere]
    refine .bind_ok hcurrent ?_
    rw [if_neg (by simpa using hx)]
    have honward := hstill.onward_still h
    have hmend := mend_ends (F := F) (hstill.good h)
      (by rw [hstill.state]; exact hedge)
    refine (hmend.mono (fun _ _ hq => hq) fun _ _ hf => hf.after honward).bind ?_
    rintro t p₂ ⟨hmended, hmarked, ht⟩
    obtain ⟨p', hadd, hadded⟩ := addMadeUp_ok hmended.good ht
    exact .bind_ok hadd (.pure ⟨honward.trans (hmended.trans hadded), .inr ⟨hx, hadded.marked hmarked⟩⟩)

def withOperator (t : Token) (f : Frame) : Frame :=
  { f with info := { f.info with operator := some t } }

theorem noteOperator_ok (h : Good R T p) :
    ∃ p₁ p₂, (do Rule.setOperator (← onStream (TokenStream.lookAhead 1))) p = .ok ⟨⟩ p₁ ∧
      symbol 1 p₁ = .ok (T.token p.place).type p₂ ∧ Onward R T p p₂ ∧ p₂.place = p.place ∧
      p₂.stack = p.stack.modifyHead (withOperator (T.token p.place)) ∧
      p₂.core.state = p.core.state ∧ (T.silent = true → p₂.core.reports = p.core.reports) := by
  obtain ⟨q, hlook, hstill⟩ := h.lookAhead_one
  have hq := hstill.good h
  have hnoted := hq.modifyTop (f := withOperator (T.token p.place)) (fun _ => rfl) (fun _ => rfl)
    fun _ => rfl
  obtain ⟨p₂, hsymbol, hstill₂⟩ := hnoted.good.symbol_one
  have hplace : place { q with stack := q.stack.modifyHead (withOperator (T.token p.place)) } =
      p.place := hstill.place
  rw [hplace] at hsymbol
  refine ⟨_, p₂, (Run.bind_ok hlook).trans (modifyTop_ok hq.stack_ne_nil _), hsymbol,
    (hstill.onward_still h).trans (hnoted.trans (hstill₂.onward_still hnoted.good)), ?_, ?_,
    hstill₂.state.trans hstill.state, fun hs => (hstill₂.silent hs).trans (hstill.silent hs)⟩
  · rw [hstill₂.place, hplace]
  · rw [hstill₂.stack, hstill.stack]

theorem readOperator_ok (h : Good R T p) {xs : List Int}
    (hx : xs.contains (T.token p.place).type = true) :
    ∃ p', Rule.readOperator xs p = .ok ⟨⟩ p' ∧ Matched R T p p' ∧
      p'.stack = p.stack.modifyHead fun f =>
        (withOperator (T.token p.place) f).add (plainLeaf T p) := by
  obtain ⟨p₁, p₂, hnote, hsymbol, honward, hplace, hstack₂, hstate, hsilent⟩ := noteOperator_ok h
  obtain ⟨p', hconsume, hmatched, hstack⟩ := settle_consume honward.good
  refine ⟨p', ?_, ⟨honward.trans hmatched.toOnward, by rw [hmatched.next, hplace],
    hmatched.state.trans hstate, hmatched.recovering,
    fun hs => (hmatched.silent hs).trans (hsilent hs)⟩, ?_⟩
  · rw [Rule.readOperator, ← bind_assoc, Run.bind_ok hnote, Run.bind_ok hsymbol, if_pos hx]
    exact (Run.bind_ok rfl).trans (Run.bind_ok hconsume)
  · rw [hstack, hstack₂, List.modifyHead_modifyHead, hplace]
    rfl

theorem readOperator_ends (h : Good R T p) (xs : List Int)
    (hedge : ∃ edge, (Grammar.parserNetwork.edges p.core.state.toNat)[0]? = some edge) :
    Ends F (Rule.readOperator xs) p (fun _ p' => Onward R T p p' ∧
      ((xs.contains (T.token p.place).type = true ∧ Matched R T p p' ∧
        p'.stack = p.stack.modifyHead fun f =>
          (withOperator (T.token p.place) f).add (plainLeaf T p)) ∨
      xs.contains (T.token p.place).type = false ∧ p'.core.reports ≠ #[])) (Failed R T p) := by
  cases hx : xs.contains (T.token p.place).type with
  | true =>
    obtain ⟨p', hrun, hmatched, hstack⟩ := readOperator_ok h hx
    exact .of_ok hrun ⟨hmatched.toOnward, .inl ⟨rfl, hmatched, hstack⟩⟩
  | false =>
    obtain ⟨p₁, p₂, hnote, hsymbol, honward, hplace, hstack, hstate, _⟩ := noteOperator_ok h
    rw [Rule.readOperator, ← bind_assoc]
    refine .bind_ok hnote (.bind_ok hsymbol ?_)
    rw [if_neg (by rw [hx]; simp)]
    have hmend := mend_ends (F := F) honward.good (by rw [hstate]; exact hedge)
    refine (hmend.mono (fun _ _ hq => hq) fun _ _ hf => hf.after honward).bind ?_
    rintro t p₃ ⟨hmended, hmarked, _⟩
    have hset := hmended.good.modifyTop (f := withOperator t) (fun _ => rfl) (fun _ => rfl) fun _ => rfl
    exact .of_ok (modifyTop_ok hmended.good.stack_ne_nil _) ⟨honward.trans (hmended.trans hset),
      .inr ⟨rfl, hmarked⟩⟩

theorem requirePrecedence_ends (h : Good R T p) (n : Int) :
    Ends F (Rule.requirePrecedence n) p (fun _ p' => p' = p ∧ p.core.precedence ≤ n)
      (Failed R T p) := by
  rw [Rule.requirePrecedence]
  refine .bind_ok rfl ?_
  split
  · obtain ⟨p₁, hcurrent, hstill⟩ := h.current
    exact .bind_ok hcurrent (.of_recognition rfl (hstill.failed h ⟨⟨p.place, h.le, rfl⟩,
      .inr (.inr ⟨rfl, _, rfl⟩)⟩))
  · exact .pure ⟨rfl, by omega⟩

theorem throw_noOperand {α : Type} (h : Good R T p) {Q : α → Parser → Prop} :
    Ends F (do throw (.recognition (← Rule.noOperand))) p Q (Failed R T p) := by
  obtain ⟨e, p', hrun, hstill, he⟩ : ∃ e p', Rule.noOperand p = .ok e p' ∧ Still R T p p' ∧
      Sensible T e := by
    obtain ⟨p', hcurrent, hstill⟩ := h.current
    exact ⟨_, p', by rw [Rule.noOperand, Run.bind_ok hcurrent]; rfl, hstill, ⟨p.place, h.le, rfl⟩,
      .inl ⟨rfl, p.place, h.le, rfl⟩⟩
  exact .of_recognition (by rw [Run.bind_ok hrun]; rfl) (hstill.failed h he)

end Parser

end Throbac
