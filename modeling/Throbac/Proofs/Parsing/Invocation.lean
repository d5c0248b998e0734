import Throbac.Proofs.Parsing.Rules

/-!
# Calling rules

A rule is entered, its body is followed, an error in it is handled, and it is left again. Whatever
happens in the body, the rules in progress are afterwards those of the caller.
-/
namespace Throbac

open TokenStream (On At Holds)

namespace Parser

variable {R : CacheCondition} {T : Tape} {B : Prop} {choose : Int → ParseM Int} {p p' p'' : Parser}
  {n i k : Nat}

/-- The innermost phrase, above the given ones, is a derived phrase of the rule, read from the place
`i` on. -/
def Finished (T : Tape) (n i : Nat) (attached : Bool) (rest : List Frame) (p : Parser) : Prop :=
  ∃ f, p.stack = f :: rest ∧ f.attached = attached ∧ f.info.kind.rule = n ∧ Derived f.close ∧
    T.Walk i f.close.leaves p.place

theorem Finished.kept {a : Bool} {rest : List Frame} (h : Finished T n i a rest p)
    (hs : p'.stack = p.stack) (hp : p'.place = p.place) : Finished T n i a rest p' := by
  rw [Finished, hs, hp]
  exact h

/-- The body of a rule was followed, or its error handled. -/
structure Followed (R : CacheCondition) (T : Tape) (B : Prop) (n i : Nat) (attached : Bool)
    (rest : List Frame) (p p' : Parser) : Prop extends Onward R T p p' where
  finished : p'.core.reports = #[] → Finished T n i attached rest p'
  less : ¬ B ∧ (Grammar.phraseFirst n).contains (here T p) = true → p'.effort T < p.effort T

theorem derived_close {f g : Frame} (h : Derived f.close) (hk : g.info.kind = f.info.kind)
    (ho : g.info.operator = f.info.operator) (hf : g.info.failure = f.info.failure)
    (hp : g.parts = f.parts) : Derived g.close := by
  cases h with
  | node hkind hparts hfailure hall =>
    exact .node (hk ▸ hkind) (by rw [hp, ho]; exact hparts) (hf.trans hfailure) (by rw [hp]; exact hall)

theorem finished_of_added {f : Frame} {rest : List Frame} {is : List Item} (h : Added T is p p')
    (hs : p.stack = f :: rest) (hempty : f.parts = []) (hfailure : f.info.failure = none)
    (hoperator : f.info.operator = none) (hkind : Grammar.production f.info.kind = some is)
    (hrule : f.info.kind.rule = n) : Finished T n p.place f.attached rest p' := by
  obtain ⟨cs, o, g, f', rest', hs', hs'', hgrows, hconsists, hderived, hwalk⟩ := h
  obtain ⟨rfl, rfl⟩ := List.cons.inj (hs.symm.trans hs')
  have hparts : f'.parts.reverse = cs := by
    rw [hgrows.parts, hempty, List.append_nil, List.reverse_reverse]
  refine ⟨f', hs'', hgrows.attached, by rw [hgrows.kind, hrule], ?_, ?_⟩
  · refine .node (hgrows.kind ▸ hkind) ?_ (hgrows.failure.trans hfailure) ?_
    · rw [hparts, hgrows.operator, hoperator, Option.or_none]
      exact hconsists
    · rw [hparts]
      exact hderived
  · rw [leaves_close, hparts]
    exact hwalk

theorem eof_not_mem_phraseFirst (n : Nat) : (Grammar.phraseFirst n).contains Symbol.eof = false := by
  unfold Grammar.phraseFirst
  split <;> decide

theorem followed_rescue {a : Bool} {rest : List Frame} {m : ParseM Unit} {height : Nat}
    (hheight : height = p.stack.length) (hT : T.Spelled) (h : Good R T p)
    (hm : Ends (Broken B) m p (fun _ p' => Followed R T B n i a rest p p') (Failed R T p)) :
    Ends (Broken B) (tryCatchThe Interruption m fun e => Rule.rescue height e) p
      (fun _ p' => Followed R T B n i a rest p p') fun _ _ => False := by
  refine hm.rescue (fun e p₁ hfailed => ?_) fun e p₁ hne => ?_
  · obtain ⟨honward, hsensible⟩ := hfailed
    obtain ⟨p₂, hrescue, honward₂, hmarked, hless⟩ := rescue_ok honward.good hT hsensible
      (hheight.trans (length_stack honward).symm)
    refine .of_ok hrescue ⟨honward.trans honward₂, fun hc => absurd hc hmarked, fun hhaste => ?_⟩
    have heof : p.place ≠ T.last := fun hlast => by
      rw [(eof_iff h.toSteady).2 hlast, eof_not_mem_phraseFirst] at hhaste
      exact absurd hhaste.2 (by simp)
    rcases honward.place_eq_or_lt h with hplace | hlt
    · exact Nat.lt_of_lt_of_le (hless (hplace ▸ heof)) honward.effort
    · exact Nat.lt_of_le_of_lt honward₂.effort hlt
  · cases e with
    | recognition e => exact absurd rfl (hne e)
    | fault f => rfl
    | cancelled e => rfl

/-! Leaving a rule after work was broken off raises no error. -/

theorem onStream_broken {α : Type} {m : StreamM α} (h : Broken B p) :
    Ends (Broken B) (onStream m) p (fun _ => Broken B) fun _ _ => False := by
  unfold Ends onStream onCore Recognizer.onStream
  by_cases hc : p.core.connected = true
  · rw [if_pos hc]
    cases m p.core.stream <;> exact h
  · rw [if_neg hc]
    exact h

theorem modifyTop_broken {f : Frame → Frame} (h : Broken B p) :
    Ends (Broken B) (modifyTop f) p (fun _ => Broken B) fun _ _ => False := by
  rw [modifyTop]
  refine .bind_ok rfl ?_
  cases p.stack <;> exact h

theorem top_broken (h : Broken B p) :
    Ends (Broken B) top p (fun _ => Broken B) fun _ _ => False := by
  rw [top]
  refine .bind_ok rfl ?_
  cases p.stack <;> exact h

theorem pop_broken (h : Broken B p) :
    Ends (Broken B) pop p (fun _ => Broken B) fun _ _ => False := by
  rw [pop]
  refine .bind_ok rfl ?_
  cases p.stack <;> exact h

theorem markStop_broken (h : Broken B p) :
    Ends (Broken B) markStop p (fun _ => Broken B) fun _ _ => False :=
  (onStream_broken h).bind fun _ _ h => modifyTop_broken h

theorem exitRule_broken (h : Broken B p) :
    Ends (Broken B) exitRule p (fun _ => Broken B) fun _ _ => False := by
  refine (markStop_broken h).bind fun _ p₁ h₁ => .bind_ok (announceExit_ok h₁.2) ?_
  refine (top_broken h₁).bind fun _ p₂ h₂ => .bind_ok rfl ?_
  exact pop_broken ⟨h₂.1, h₂.2⟩

theorem exitRecursion_broken (h : Broken B p) (height : Nat) :
    Ends (Broken B) (exitRecursion height) p (fun _ => Broken B) fun _ _ => False := by
  rw [exitRecursion]
  refine .bind_ok rfl (Ends.bind (markStop_broken ⟨h.1, h.2⟩) fun _ p₁ h₁ => .bind_ok rfl ?_)
  refine (top_broken h₁).bind fun _ p₂ h₂ => .bind_ok rfl ?_
  rw [if_neg (by simp [h₂.2])]
  exact .bind_ok rfl (.bind_ok rfl ⟨h₂.1, h₂.2⟩)

theorem Left.passed {t : ParseTree} {q : Parser} (hleft : Left R T p' p'')
    (hgood : Good R T p') (hplace : i ≤ p'.place) (hcallers : p'.callers.tail = p.callers)
    (hprec : p''.core.precedences = p.core.precedences) (hkept : Kept T p q)
    (hreports : ∃ rs, p'.core.reports = q.core.reports ++ rs)
    (htrail : T.Trail i t.leaves p'.place) (hstack : p''.stack = p.stack.modifyHead (·.add t))
    (htree : p''.core.reports = #[] → t.rule? = some (n : Int) ∧ Derived t ∧
      T.Walk i t.leaves p'.place) :
    Passed R T n i p (some t) p'' := by
  have hplace'' : p''.place = p'.place := place_of_on hleft.on
  obtain ⟨rs, hrs, _⟩ := hleft.reports
  obtain ⟨rs', hrs'⟩ := hreports
  obtain ⟨rs'', hrs'', _⟩ := hkept.reports
  refine ⟨hleft.ready, by rw [hplace'']; exact hleft.on, by rw [hplace'']; exact hplace,
    hleft.callers.trans hcallers, hprec, fun hr hc => ?_, ⟨rs'' ++ rs' ++ rs, ?_⟩, t, rfl, ?_⟩
  · rw [hrs, Array.append_eq_empty_iff] at hc
    exact hgood.recovering (hleft.recovering ▸ hr) hc.1
  · rw [hrs, hrs', hrs'', Array.append_assoc, Array.append_assoc, Array.append_assoc]
  · rw [hplace'']
    exact ⟨htrail, hstack, htree⟩

theorem Carries.closed {f : Frame} {rest : List Frame} (h : Carries T p p') (hs : p.stack = f :: rest)
    (hempty : f.parts = []) : ∃ f', p'.stack = f' :: rest ∧ f'.attached = f.attached ∧
      T.Trail p.place f'.close.leaves p'.place := by
  obtain ⟨g, f', rest', ts, hs', hs'', ha, hl, htrail⟩ := h
  obtain ⟨rfl, rfl⟩ := List.cons.inj (hs.symm.trans hs')
  refine ⟨f', hs'', ha, ?_⟩
  rw [hl, leaves_close, hempty]
  exact htrail

theorem Followed.phrased {g : Frame} {a : Bool} {e : Nat} {stop : Option Token} {q : Parser}
    (h : Followed R T B n i a p.stack q p') (hplace : q.place = i) (hs : p'.stack = g :: p.stack)
    (htrail : T.Trail q.place g.close.leaves p'.place) (hcallers : q.callers.tail = p.callers)
    (hkept : Kept T p q) (hle : q.effort T ≤ e) (hleft : Left R T p' p'')
    (hprec : p''.core.precedences = p.core.precedences)
    (hstack : p''.stack = p.stack.modifyHead (·.add (stopAt stop g).close)) :
    Phrased R T B n i e p (some (stopAt stop g).close) p'' := by
  subst hplace
  have heffort : p''.effort T = p'.effort T := hleft.toKept.effort h.good.on hleft.on
  refine ⟨hleft.passed h.good h.place (by rw [h.callers, hcallers]) hprec hkept h.reports
    (by rw [leaves_stopAt]; exact htrail) hstack fun hc => ?_, heffort ▸ Nat.le_trans h.effort hle,
    fun hhaste => heffort ▸ Nat.lt_of_lt_of_le (h.less hhaste) hle⟩
  obtain ⟨f', hs', _, hrule, hderived, hwalk⟩ := h.finished (hleft.clean hc)
  obtain ⟨rfl, _⟩ := List.cons.inj (hs.symm.trans hs')
  exact ⟨congrArg some hrule, derived_close hderived rfl rfl rfl rfl, by rw [leaves_stopAt]; exact hwalk⟩

theorem enclosed_ends {r : Rule} {body : ParseM Unit} {e : Nat} (hT : T.Spelled)
    (hrule : r.kind.rule = n) (hn : n < 11) (henter : Part.isState 160 r.enter = true)
    (h : Poised R T i p) (heffort : ∀ p₁, Kept T p p₁ → On T i p₁.core.stream → p₁.effort T ≤ e)
    (hbody : ∀ f p₁, Good R T p₁ → p₁.place = i → p₁.stack = f :: p.stack →
      Opened r.kind p.core.state f → f.attached = true → Within p₁ n → p₁.effort T ≤ e →
      Ends (Broken B) body p₁
        (fun _ p' => Followed R T B n i true p.stack p₁ p') (Failed R T p₁)) :
    Ends (Broken B) (Rule.invoke.enclosed r body) p
      (Phrased R T B n i e p) fun _ _ => False := by
  obtain ⟨f, p₁, hrun, hgood, hplace, hstack, hopened, hattached, hprec, hkept⟩ :=
    enterRule_ok h (show 0 ≤ r.kind.rule ∧ r.kind.rule < 11 by omega) henter
  have hcall : f.call = ⟨n, p.core.state⟩ := by
    rw [Frame.call, hopened.kind, hopened.invoking, hrule]
  have hcallers : p₁.callers = f.call :: p.callers := by
    rw [callers_eq, hstack, List.map_cons, callers_eq]
  have hwithin : Within p₁ n := by
    rw [Within, hcallers, hcall]
    rfl
  have hle := heffort p₁ hkept (hplace ▸ hgood.on)
  have hwork := followed_rescue rfl hT hgood
    (hbody f p₁ hgood hplace hstack hopened hattached hwithin hle)
  -- the rule is left in any case
  have hfinal := hwork.finish exitRule
    (R := fun _ t => Phrased R T B n i e p (some t)) (fun _ p₂ h₂ => ?_) fun p₂ h₂ => exitRule_broken h₂
  · rw [Rule.invoke.enclosed]
    refine .bind_ok rfl (.bind_ok hrun (.bind_ok rfl (hfinal.bind fun x p₂ h₂ => ?_)))
    obtain ⟨_, t⟩ := x
    refine .bind_ok rfl ?_
    have hlength : p₂.stack.length = p.stack.length := by
      have := congrArg List.length h₂.1.callers
      simpa [callers_eq] using this
    rw [if_neg (by rw [hlength, hstack]; simp)]
    exact .pure h₂
  · obtain ⟨g, hs, ha, htrail⟩ := h₂.carries.closed hstack hopened.parts
    obtain ⟨stop, p₃, hexit, hleft, hprec₃, hstack₃⟩ := exitRule_ok h₂.good hs
    rw [ha, hattached, if_pos rfl] at hstack₃
    exact .of_ok hexit (h₂.phrased hplace hs htrail (by rw [hcallers]; rfl) hkept hle hleft
      (by rw [hprec₃, h₂.precedences, hprec]) hstack₃)

theorem become_ok (h : Good R T p) {f : Frame} {rest : List Frame} (hs : p.stack = f :: rest)
    {kind : NodeKind} (hrule : kind.rule = f.info.kind.rule) (hu : Unbegun p) :
    modifyTop (·.become kind) p = .ok ⟨⟩ { p with stack := f.become kind :: rest } ∧
      Onward R T p { p with stack := f.become kind :: rest } := by
  constructor
  · rw [modifyTop_ok h.stack_ne_nil, hs]
    rfl
  · refine h.change (n := p.core.state) ?_ h.isState
      (.of_leaves hs rfl rfl (leaves_become (hu f (by simp [hs])) kind) rfl)
    rw [hs, List.map_cons, List.map_cons, Frame.call, Frame.call, Frame.become, hrule]

theorem levels_succ {e k b : Nat} (hfuel : B ∨ e * Grammar.levels + b ≤ k + 1) (hb : 1 ≤ b)
    (he : p.effort T ≤ e) : Fueled T B p (fun b' => b' = b - 1) k := by
  refine hfuel.imp_right fun h => ⟨b - 1, ?_, rfl⟩
  have := Nat.mul_le_mul_right Grammar.levels he
  omega

theorem sequence_followed {is : List Item} {ps : List Part} {f : Frame} {rest : List Frame}
    (h : Advance R T is (¬ B ∧ Led T p ps) p p') (hs : p.stack = f :: rest)
    (hempty : f.parts = []) (hfailure : f.info.failure = none) (hoperator : f.info.operator = none)
    (hkind : Grammar.production f.info.kind = some is) (hrule : f.info.kind.rule = n)
    (hled : ¬ B → (Grammar.phraseFirst n).contains (here T p) = true → Led T p ps) :
    Followed R T B n p.place f.attached rest p p' :=
  ⟨h.toOnward, fun hc => finished_of_added (h.added hc) hs hempty hfailure hoperator hkind hrule,
    fun hhaste => h.less ⟨hhaste.1, hled hhaste.1 hhaste.2⟩⟩

theorem Chosen.exists_alternative {α : Type} {xs : List α} {d alt : Int}
    (h : Chosen T B d alt xs.length p) :
    ∃ a, xs[alt.toNat - 1]? = some a ∧ a ∈ xs ∧ 0 < alt ∧ (a, alt.toNat - 1) ∈ xs.zipIdx ∧
      ((alt.toNat - 1 : Nat) : Int) + 1 = alt := by
  obtain ⟨⟨hlo, hhi⟩, _⟩ := h
  have hlt : alt.toNat - 1 < xs.length := by omega
  exact ⟨xs[alt.toNat - 1], List.getElem?_eq_getElem hlt, List.getElem_mem hlt, by omega,
    List.mk_mem_zipIdx_iff_getElem?.2 (List.getElem?_eq_getElem hlt), by omega⟩

theorem Chosen.led {ps : List Part} {d alt : Int} {count : Nat} (h : Chosen T B d alt count p)
    (hstarts : (Grammar.opening d alt).any (Part.startsWith ps) = true) (hB : ¬ B) : Led T p ps := by
  obtain ⟨xs, hxs, hstarts⟩ := (Option.any_eq_true _ _).1 hstarts
  exact Part.lead_of_startsWith hstarts (h.2 hB xs hxs)

theorem Within.head (h : Within p n) {f : Frame} {rest : List Frame} (hs : p.stack = f :: rest) :
    f.info.kind.rule = n := by
  rw [Within, callers_eq, hs] at h
  exact Option.some.inj h

/-- An alternative of a rule is followed. -/
structure Tried (R : CacheCondition) (T : Tape) (B : Prop) (n : Nat) (ps : List Part)
    (p p' : Parser) : Prop extends Onward R T p p' where
  finished : p'.core.reports = #[] → ∀ f rest, p.stack = f :: rest → f.parts = [] →
    Finished T n p.place f.attached rest p'
  less : ¬ B ∧ Led T p ps → p'.effort T < p.effort T

theorem unbegun_of_opened {f : Frame} {rest : List Frame} (hs : p.stack = f :: rest)
    (hempty : f.parts = []) : Unbegun p := by
  intro g hg
  rw [hs, List.head?_cons, Option.mem_some_iff] at hg
  subst hg
  simp [hempty]

theorem alternative_ends {a : Alternative} (hseq : SequenceSpec R T B choose k) (h : Good R T p)
    (hwithin : Within p n) (hu : Unbegun p) (hspells : a.Spells n []) (hplaced : Placed n a.parts)
    (hfuel : Fueled T B p (FitsHere T p a.parts) k) :
    Ends (Broken B)
      (modifyTop (·.become a.kind) >>= fun _ => Rule.sequence Grammar.rules choose k a.parts) p
      (fun _ p' => Tried R T B n a.parts p p') (Failed R T p) := by
  obtain ⟨f, rest, hs⟩ := List.exists_cons_of_ne_nil h.stack_ne_nil
  obtain ⟨hbecome, honward⟩ := become_ok h hs (hspells.1.trans (hwithin.head hs).symm) hu
  refine .bind_ok hbecome ((hseq n a.parts _ hplaced honward.good (hwithin.onward honward) hfuel).mono
    (fun _ p' h' => ⟨honward.trans h'.toOnward, fun hc g rest' hs' hempty => ?_, h'.less⟩)
    fun _ _ hf => hf.after honward)
  obtain ⟨rfl, rfl⟩ := List.cons.inj (hs.symm.trans hs')
  have hparts : (f.become a.kind).parts = [] := by simp [Frame.become, hempty]
  have hfinished := finished_of_added (f := f.become a.kind) (h'.added hc) rfl hparts rfl rfl
    hspells.2 hspells.1
  exact hfinished

theorem Tried.followed {ps : List Part} {f : Frame} {rest : List Frame} (h : Tried R T B n ps p' p'')
    (harr : Arrived R T p p') (hg : Good R T p) (hs : p.stack = f :: rest) (hempty : f.parts = [])
    (hled : ¬ B → (Grammar.phraseFirst n).contains (here T p) = true → here T p' = here T p →
      Led T p' ps) :
    Followed R T B n p.place f.attached rest p p'' where
  toOnward := harr.toOnward.trans h.toOnward
  finished hc := by
    obtain ⟨hstack, hplace⟩ := harr.kept (h.toOnward.clean hc)
    rw [← hplace]
    exact h.finished hc f rest (hstack.trans hs) hempty
  less hhaste := by
    rcases harr.place_eq_or_lt hg with hplace | hlt
    · have := h.less ⟨hhaste.1, hled hhaste.1 hhaste.2 (here_eq hplace)⟩
      exact Nat.lt_of_lt_of_le this harr.effort
    · exact Nat.lt_of_le_of_lt h.effort hlt

section Invoke

variable {r : Rule} {e : Nat} {q : Int} (hT : T.Spelled) (hseq : SequenceSpec R T B choose k)
  (hr : Grammar.rules[n]? = some r) (h : Poised R T i p)
  (heffort : ∀ p₁, Kept T p p₁ → On T i p₁.core.stream → p₁.effort T ≤ e)
  (hfuel : B ∨ e * Grammar.levels + Grammar.phraseLevels n ≤ k + 1)

include hT hseq hr h heffort hfuel

theorem invoke_sequence {ps : List Part} (hbody : r.body = .sequence ps) :
    Ends (Broken B) (Rule.invoke Grammar.rules choose (k + 1) n q) p
      (Phrased R T B n i e p) fun _ _ => False := by
  have hn : n < 11 := (Array.getElem?_eq_some_iff.1 hr).1
  have hspells := Grammar.spells_rules hr
  have hplaced := Grammar.isPlaced_rules hr
  have hfits := Grammar.fits_rules hr
  simp only [Rule.Spells, hbody] at hspells
  simp only [Rule.isPlaced, hbody, Bool.and_eq_true] at hplaced
  simp only [Rule.fits, hbody, Bool.and_eq_true, decide_eq_true_eq] at hfits
  rw [Rule.invoke, hr]
  dsimp only
  rw [hbody]
  refine enclosed_ends hT hspells.1 hn hplaced.1 h heffort
    fun f p₁ hgood hplace hstack hopened hattached hwithin hle => ?_
  have hparts : Fueled T B p₁ (FitsHere T p₁ ps) k :=
    (levels_succ hfuel (by omega) hle).mono fun b hb => .inl (hb ▸ hfits.2.1)
  refine (hseq n ps p₁ hplaced.2 hgood hwithin hparts).mono (fun _ p₂ h₂ => ?_) fun _ _ hf => hf
  rw [← hplace, ← hattached]
  refine sequence_followed h₂ hstack hopened.parts hopened.failure hopened.operator ?_ ?_ ?_
  · rw [hopened.kind]
    exact hspells.2
  · rw [hopened.kind]
    exact hspells.1
  · intro _ hfirst
    exact Part.lead_of_startsWith hfits.2.2 (List.contains_iff_mem.1 hfirst)

theorem invoke_choice {s d : Int} {as : List Alternative} (hchoose : Chooses R T B choose)
    (hbody : r.body = .choice s d as) :
    Ends (Broken B) (Rule.invoke Grammar.rules choose (k + 1) n q) p
      (Phrased R T B n i e p) fun _ _ => False := by
  have hn : n < 11 := (Array.getElem?_eq_some_iff.1 hr).1
  have hspells := Grammar.spells_rules hr
  have hplaced := Grammar.isPlaced_rules hr
  have hfits := Grammar.fits_rules hr
  simp only [Rule.Spells, hbody] at hspells
  simp only [Rule.isPlaced, hbody, Bool.and_eq_true, List.all_eq_true] at hplaced
  simp only [Rule.fits, hbody, Bool.and_eq_true, decide_eq_true_eq, List.all_eq_true] at hfits
  rw [Rule.invoke, hr]
  dsimp only
  rw [hbody]
  refine enclosed_ends hT hspells.1 hn hplaced.1 h heffort
    fun f p₁ hgood hplace hstack hopened hattached hwithin hle => ?_
  refine decide_ends hchoose hgood hwithin hplaced.2.1.1 hplaced.2.1.2
    fun alt p₂ h₂ hwithin₂ hchosen => ?_
  obtain ⟨a, hget, hmem, hpos, hzip, hnum⟩ := hchosen.exists_alternative
  obtain ⟨hled, hopening⟩ := hfits.2 _ hzip
  rw [hnum] at hopening
  rw [hget]
  dsimp only
  rw [if_pos hpos]
  have hstarts : ¬ B → Led T p₂ a.parts := hchosen.led hopening
  have hparts : Fueled T B p₂ (FitsHere T p₂ a.parts) k := by
    by_cases hB : B
    · exact .inl hB
    · exact ((levels_succ hfuel (by omega) hle).onward h₂.toOnward).mono fun b hb =>
        .inr ⟨hb ▸ hled, hstarts hB⟩
  refine (alternative_ends hseq h₂.good hwithin₂ (h₂.unbegun (unbegun_of_opened hstack hopened.parts))
    (hspells.2 a hmem) (hplaced.2.2 a hmem) hparts).mono (fun _ p₃ h₃ => ?_) fun _ _ hf => hf
  rw [← hplace, ← hattached]
  exact h₃.followed h₂ hgood hstack hopened.parts fun hB _ _ => hstarts hB

end Invoke

section Recursion

variable (R T B choose)

def SuffixesSpec (k : Nat) : Prop :=
  ∀ (n i : Nat) (r : Rule) (invoking : Int) (f : Frame) (rest : List Frame) (body : Recursion)
    (alt : Int) (p : Parser), Grammar.rules[n]? = some r → r.body = .recursion body → Good R T p →
    p.callers.head? = some ⟨n, invoking⟩ → p.stack = f :: rest → f.attached = false →
    (p.core.reports = #[] → Finished T n i false rest p) → Chosen T B body.loopDecision alt 2 p →
    Fueled T B p (fun b => b = Grammar.phraseLevels n - 2) k →
    Ends (Broken B) (Rule.suffixes Grammar.rules choose k r invoking rest.length body alt) p
      (fun _ p' => Onward R T p p' ∧ (p'.core.reports = #[] → Finished T n i false rest p'))
      (Failed R T p)

def RecursionSpec (k : Nat) : Prop :=
  ∀ (n : Nat) (r : Rule) (invoking : Int) (f : Frame) (rest : List Frame) (body : Recursion)
    (p : Parser), Grammar.rules[n]? = some r → r.body = .recursion body → Good R T p →
    p.callers.head? = some ⟨n, invoking⟩ → p.stack = f :: rest → f.parts = [] →
    f.attached = false → Fueled T B p (fun b => b = Grammar.phraseLevels n - 1) k →
    Ends (Broken B) (Rule.recursion Grammar.rules choose k r invoking rest.length body) p
      (fun _ p' => Followed R T B n p.place false rest p p') (Failed R T p)

variable {R T B choose}

theorem wrap_finished {s : Suffix} {r : Rule} {invoking : Int} {f : Frame} {rest : List Frame}
    (h : Good R T p) (hhead : p.callers.head? = some ⟨n, invoking⟩) (hs : p.stack = f :: rest)
    (ha : f.attached = false) (hrule : s.kind.rule = n) :
    ∃ p', wrap s.kind r.enter invoking (rest.length + 1) p = .ok ⟨⟩ p' ∧ Onward R T p p' ∧
      p'.place = p.place ∧ (Finished T n i false rest p →
        ∃ g t, p'.stack = g.add t :: rest ∧ Opened s.kind invoking g ∧ g.attached = false ∧
          t.rule? = some (n : Int) ∧ Derived t ∧ T.Walk i t.leaves p.place) := by
  have hcall : (⟨s.kind.rule, invoking⟩ : Call) = f.call := by
    rw [callers_eq, hs] at hhead
    rw [hrule]
    exact (Option.some.inj hhead).symm
  obtain ⟨g, t, p', hrun, honward, hplace, hstack, hopened, hattached, ⟨stop, rfl⟩, _⟩ :=
    wrap_ok h (n := r.enter) hs hcall ha
  refine ⟨p', hrun, honward, hplace, fun hfinished => ?_⟩
  obtain ⟨f', hs', _, hrule', hderived, hwalk⟩ := hfinished
  obtain ⟨rfl, _⟩ := List.cons.inj (hs.symm.trans hs')
  refine ⟨g, _, hstack, hopened, hattached, congrArg some hrule', derived_close hderived rfl rfl rfl rfl,
    ?_⟩
  rw [leaves_close] at hwalk ⊢
  exact hwalk

theorem finished_of_wrapped {kind : NodeKind} {invoking : Int} {g : Frame} {t : ParseTree}
    {rest : List Frame} {is : List Item} (h : Added T is p p') (hs : p.stack = g.add t :: rest)
    (hopened : Opened kind invoking g) (hrule : t.rule? = some (n : Int)) (hderived : Derived t)
    (hwalk : T.Walk i t.leaves p.place)
    (hkind : Grammar.production kind = some ([.phrase n] ++ is)) (hn : kind.rule = n) :
    Finished T n i g.attached rest p' := by
  obtain ⟨cs, o, g', f', rest', hs', hs'', hgrows, hconsists, hall, hwalk'⟩ := h
  obtain ⟨rfl, rfl⟩ := List.cons.inj (hs.symm.trans hs')
  have hparts : f'.parts.reverse = t :: cs := by
    rw [hgrows.parts, Frame.add, hopened.parts, List.reverse_append, List.reverse_reverse]
    rfl
  have hkind' : f'.info.kind = kind := hgrows.kind.trans hopened.kind
  refine ⟨f', hs'', hgrows.attached, by rw [hkind', hn], ?_, ?_⟩
  · refine .node (hkind' ▸ hkind) ?_ (hgrows.failure.trans hopened.failure) ?_
    · have hoperator : f'.info.operator = o := by
        rw [hgrows.operator, show (g.add t).info.operator = none from hopened.operator, Option.or_none]
      rw [hparts, hoperator]
      exact .phrase hrule hconsists
    · rw [hparts]
      exact List.forall_mem_cons.2 ⟨hderived, hall⟩
  · rw [leaves_close, hparts, List.flatMap_cons]
    exact hwalk.append hwalk'

/-- What the tables say about a rule that may start with itself. -/
structure Tabled (n : Nat) (r : Rule) (body : Recursion) : Prop where
  rule : r.kind.rule = n
  enter : Part.isState 160 r.enter = true
  states : Part.isState 160 body.state = true ∧ Part.isState 160 body.loop = true ∧
    Part.isState 160 body.back = true ∧ Part.isState 160 body.choice = true
  loopDecision : Part.isDecision Grammar.parserNetwork.width n 2 body.loopDecision = true
  choiceDecision : Part.isDecision Grammar.parserNetwork.width n body.suffixes.length
    body.choiceDecision = true
  levels : 4 ≤ Grammar.phraseLevels n
  operand : ∀ a ∈ body.operands, a.Spells n [] ∧ Placed n a.parts ∧
    Part.fitsLed a.parts (Grammar.phraseLevels n - 2) = true ∧ Part.startsWith a.parts a.first = true
  suffix : ∀ s ∈ body.suffixes, s.Spells n [.phrase n] ∧ Part.isState 160 s.state = true ∧
    Placed n s.parts ∧ Part.fitsLed s.parts (Grammar.phraseLevels n - 3) = true
  opening : ∀ s k, (s, k) ∈ body.suffixes.zipIdx →
    (Grammar.opening body.choiceDecision (k + 1)).any (Part.startsWith s.parts) = true

theorem tabled {r : Rule} {body : Recursion} (hr : Grammar.rules[n]? = some r)
    (hbody : r.body = .recursion body) : Tabled n r body := by
  have hspells := Grammar.spells_rules hr
  have hplaced := Grammar.isPlaced_rules hr
  have hfits := Grammar.fits_rules hr
  simp only [Rule.Spells, hbody] at hspells
  simp only [Rule.isPlaced, hbody, Bool.and_eq_true, List.all_eq_true] at hplaced
  simp only [Rule.fits, hbody, Bool.and_eq_true, decide_eq_true_eq, List.all_eq_true] at hfits
  obtain ⟨henter, ⟨⟨⟨⟨⟨⟨hstate, hloop⟩, hback⟩, hchoice⟩, hloopD⟩, hchoiceD⟩, hoperands⟩, hsuffix⟩ :=
    hplaced
  refine ⟨hspells.1, henter, ⟨hstate, hloop, hback, hchoice⟩, hloopD, hchoiceD, hfits.1.1,
    fun a ha => ⟨hspells.2.1 a ha, hoperands a ha, (hfits.2.1.1 a ha).1, (hfits.2.1.1 a ha).2⟩,
    fun s hs => ⟨hspells.2.2 s hs, (hsuffix s hs).1, (hsuffix s hs).2, ?_⟩,
    fun s k hk => (hfits.2.1.2 (s, k) hk).2⟩
  obtain ⟨k, hk⟩ := List.getElem?_of_mem hs
  exact (hfits.2.1.2 (s, k) (List.mk_mem_zipIdx_iff_getElem?.2 hk)).1

/-- An operator and its right operand were read behind a phrase. -/
structure Operated (R : CacheCondition) (T : Tape) (B : Prop) (n i : Nat) (rest : List Frame)
    (p p' : Parser) : Prop extends Onward R T p p' where
  finished : p'.core.reports = #[] → Finished T n i false rest p → Finished T n i false rest p'
  less : ¬ B → p'.effort T < p.effort T

theorem suffix_ends {α : Type} {s : Suffix} {r : Rule} {invoking : Int} {f : Frame}
    {rest : List Frame} {m : ParseM α} {Q : α → Parser → Prop} (hseq : SequenceSpec R T B choose k)
    (hspells : s.Spells n [.phrase n]) (hstate : Part.isState 160 s.state = true)
    (hplaced : Placed n s.parts) (h : Good R T p) (hhead : p.callers.head? = some ⟨n, invoking⟩)
    (hs : p.stack = f :: rest) (ha : f.attached = false) (hled : ¬ B → Led T p s.parts)
    (hfuel : Fueled T B p (fun b => Part.fitsLed s.parts b = true) k)
    (hm : ∀ p', Operated R T B n i rest p p' → Ends (Broken B) m p' Q (Failed R T p')) :
    Ends (Broken B) (wrap s.kind r.enter invoking (rest.length + 1) >>= fun _ => setState s.state >>= fun _ =>
      Rule.requirePrecedence s.precedence >>= fun _ =>
      Rule.sequence Grammar.rules choose k s.parts >>= fun _ => m) p Q (Failed R T p) := by
  obtain ⟨p₁, hwrap, honward₁, hplace₁, hwrapped⟩ :=
    wrap_finished (i := i) (r := r) h hhead hs ha hspells.1
  have hset := honward₁.good.setState hstate
  have honward₂ := honward₁.trans hset
  have hwithin : Within p n := by
    rw [Within, hhead]
    rfl
  refine .bind_ok hwrap (.bind_ok rfl (Ends.bind ((requirePrecedence_ends hset.good s.precedence).mono
    (fun _ _ hq => hq) fun _ _ hf => hf.after honward₂) fun _ p₂ h₂ => ?_))
  obtain ⟨rfl, _⟩ := h₂
  -- the present token is still the same
  have hhere : here T { p₁ with core := { p₁.core with state := s.state } } = here T p := here_eq hplace₁
  have hled₂ : ¬ B → Led T { p₁ with core := { p₁.core with state := s.state } } s.parts := by
    intro hB
    rw [Led, hhere]
    exact hled hB
  have hparts : Fueled T B { p₁ with core := { p₁.core with state := s.state } }
      (FitsHere T { p₁ with core := { p₁.core with state := s.state } } s.parts) k := by
    by_cases hB : B
    · exact .inl hB
    · exact (hfuel.onward honward₂).mono fun b hb => .inr ⟨hb, hled₂ hB⟩
  refine ((hseq n s.parts _ hplaced hset.good (hwithin.onward honward₂) hparts).mono
    (fun _ _ hq => hq) fun _ _ hf => hf.after honward₂).bind fun _ p₃ h₃ => ?_
  refine (hm p₃ ⟨honward₂.trans h₃.toOnward, fun hc hfinished => ?_, fun hB => ?_⟩).mono
    (fun _ _ hq => hq) fun _ _ hf => hf.after (honward₂.trans h₃.toOnward)
  · obtain ⟨g, t, hs, hopened, hattached, hrule, hderived, hwalk⟩ := hwrapped hfinished
    rw [← hattached]
    exact finished_of_wrapped (h₃.added hc) hs hopened hrule hderived (hplace₁ ▸ hwalk) hspells.2
      hspells.1
  · exact Nat.lt_of_lt_of_le (h₃.less ⟨hB, hled₂ hB⟩) honward₂.effort

theorem Onward.top {f : Frame} {rest : List Frame} (h : Onward R T p p') (hs : p.stack = f :: rest) :
    ∃ f', p'.stack = f' :: rest ∧ f'.attached = f.attached := by
  obtain ⟨g, f', rest', _, hs', hs'', ha, _⟩ := h.carries
  obtain ⟨rfl, rfl⟩ := List.cons.inj (hs.symm.trans hs')
  exact ⟨f', hs'', ha⟩

theorem suffixes_succ (hchoose : Chooses R T B choose) (hseq : SequenceSpec R T B choose k)
    (hsuffixes : SuffixesSpec R T B choose k) : SuffixesSpec R T B choose (k + 1) := by
  intro n i r invoking f rest body alt p hr hbody hgood hhead hs ha hfinished hchosen hfuel
  have htable := tabled hr hbody
  rw [Rule.suffixes]
  split
  · exact .pure ⟨.refl hgood, hfinished⟩
  next halt =>
  obtain rfl : alt = 1 := by
    have := hchosen.1
    omega
  have hwithin : Within p n := by
    rw [Within, hhead]
    rfl
  dsimp only
  rw [if_pos rfl]
  refine .bind_ok rfl ?_
  rw [if_neg (by simp [hgood.listeners])]
  refine decide_ends hchoose hgood hwithin htable.states.2.2.2 htable.choiceDecision
    fun c p₁ h₁ _ hchosen₁ => ?_
  obtain ⟨s, hget, hmem, hpos, hzip, hnum⟩ := hchosen₁.exists_alternative
  have hopening := htable.opening s _ hzip
  rw [hnum] at hopening
  obtain ⟨hspells, hstate, hplaced, hled⟩ := htable.suffix s hmem
  rw [hget]
  dsimp only
  rw [if_pos hpos]
  have hhead₁ : p₁.callers.head? = some ⟨n, invoking⟩ := by rw [h₁.callers, hhead]
  have hparts : Fueled T B p₁ (fun b => Part.fitsLed s.parts b = true) k := by
    have hlevels := htable.levels
    refine (hfuel.onward h₁.toOnward).succ fun b hb => ⟨by omega, ?_⟩
    rw [hb, Nat.sub_sub]
    exact hled
  obtain ⟨f₁, hs₁, ha₁⟩ := h₁.toOnward.top hs
  refine suffix_ends (i := i) hseq hspells hstate hplaced h₁.good hhead₁ hs₁ (ha₁.trans ha)
    (hchosen₁.led hopening) hparts fun p₂ h₂ => ?_
  have honward₂ := h₁.toOnward.trans h₂.toOnward
  refine decide_ends hchoose h₂.good (hwithin.onward honward₂) htable.states.2.2.1
    htable.loopDecision fun alt p₃ h₃ _ hchosen₃ => ?_
  have honward₃ := honward₂.trans h₃.toOnward
  have hfuel₃ : Fueled T B p₃ (fun b => b = Grammar.phraseLevels n - 2) k := by
    by_cases hB : B
    · exact .inl hB
    · exact (hfuel.again (Nat.lt_of_lt_of_le (h₂.less hB) h₁.effort)).onward h₃.toOnward
  obtain ⟨f₃, hs₃, ha₃⟩ := honward₃.top hs
  refine (hsuffixes n i r invoking f₃ rest body alt p₃ hr hbody h₃.good ?_ hs₃ (ha₃.trans ha) ?_
    hchosen₃ hfuel₃).mono
    (fun _ p₄ h₄ => ⟨honward₃.trans h₄.1, h₄.2⟩) fun _ _ hf => hf
  · rw [honward₃.callers, hhead]
  · intro hc
    have hc₂ := h₃.toOnward.clean hc
    have hc₁ := h₂.toOnward.clean hc₂
    have hkept₁ := h₁.kept hc₁
    have hkept₃ := h₃.kept hc
    have hfinished₁ := (hfinished (h₁.toOnward.clean hc₁)).kept hkept₁.1 hkept₁.2
    exact (h₂.finished hc₂ hfinished₁).kept hkept₃.1 hkept₃.2

theorem Finished.marked {rest : List Frame} {stop : Option Token} {a : Bool}
    (h : Finished T n i a rest p) (hs : p'.stack = p.stack.modifyHead (stopAt stop))
    (hp : p'.place = p.place) : Finished T n i a rest p' := by
  obtain ⟨f, hf, hattached, hrule, hderived, hwalk⟩ := h
  refine ⟨stopAt stop f, by rw [hs, hf]; rfl, hattached, hrule, derived_close hderived rfl rfl rfl rfl,
    ?_⟩
  rw [leaves_close] at hwalk ⊢
  rw [hp]
  exact hwalk

theorem recursion_succ (hchoose : Chooses R T B choose) (hseq : SequenceSpec R T B choose k)
    (hsuffixes : SuffixesSpec R T B choose k) : RecursionSpec R T B choose (k + 1) := by
  intro n r invoking f rest body p hr hbody hgood hhead hs hempty hattached hfuel
  have htable := tabled hr hbody
  have hlevels := htable.levels
  have hwithin : Within p n := by
    rw [Within, hhead]
    rfl
  rw [Rule.recursion]
  refine arrive_ends hgood htable.states.1 fun p₁ h₁ => ?_
  obtain ⟨p₂, hsymbol, hstill⟩ := h₁.good.symbol_one
  have h₂ := h₁.still hstill
  refine .bind_ok hsymbol ?_
  rw [show (T.token p₁.place).type = here T p₂ from hstill.here_eq.symm]
  dsimp only
  cases hfind : body.operands.find? (·.first.contains (here T p₂)) with
  | none =>
    dsimp only
    rw [← bind_assoc]
    exact Ends.bind ((throw_noOperand (Q := fun _ _ => False) h₂.good).mono (fun _ _ hq => hq)
      fun _ _ hf => hf.after h₂.toOnward) fun _ _ hf => hf.elim
  | some a =>
    dsimp only
    have hfirst := List.find?_some hfind
    obtain ⟨hspells, hplaced, hled, hstarts⟩ := htable.operand a (List.mem_of_find?_eq_some hfind)
    have hled₂ : Led T p₂ a.parts := Part.lead_of_startsWith hstarts (List.contains_iff_mem.1 hfirst)
    have hparts : Fueled T B p₂ (FitsHere T p₂ a.parts) k := by
      refine (hfuel.onward h₂.toOnward).succ fun b hb => ⟨by omega, .inr ⟨?_, hled₂⟩⟩
      rw [hb, Nat.sub_sub]
      exact hled
    rw [← bind_assoc]
    refine Ends.bind ((alternative_ends hseq h₂.good (hwithin.onward h₂.toOnward)
      (h₂.unbegun (unbegun_of_opened hs hempty)) hspells hplaced hparts).mono (fun _ _ hq => hq) fun _ _ hf => hf.after h₂.toOnward) fun _ p₃ h₃ => ?_
    have h₃' := h₃.followed h₂ hgood hs hempty fun _ _ _ => hled₂
    rw [hattached] at h₃'
    obtain ⟨stop, p₄, hmark, hgood₄, honward₄, hplace₄, hstack₄, _⟩ := markStop_ok h₃.good
    have honward := h₃'.toOnward.trans honward₄
    refine .bind_ok hmark (Ends.mono (decide_ends hchoose hgood₄ (hwithin.onward honward)
      htable.states.2.1 htable.loopDecision fun alt p₅ h₅ _ hchosen => ?_) (fun _ _ hq => hq)
      fun _ _ hf => hf.after honward)
    have honward₅ := honward.trans h₅.toOnward
    obtain ⟨f₅, hs₅, ha₅⟩ := honward₅.top hs
    refine (hsuffixes n p.place r invoking f₅ rest body alt p₅ hr hbody h₅.good ?_ hs₅
      (ha₅.trans hattached) ?_ hchosen ((hfuel.onward honward₅).succ fun b hb =>
        ⟨by omega, by omega⟩)).mono (fun _ p₆ h₆ => ?_) fun _ _ hf => hf
    · rw [honward₅.callers, hhead]
    · intro hc
      have hkept := h₅.kept hc
      have hc₃ := honward₄.clean (h₅.toOnward.clean hc)
      exact ((h₃'.finished hc₃).marked hstack₄ hplace₄).kept hkept.1 hkept.2
    · refine ⟨honward₅.trans h₆.1, h₆.2, fun hhaste => ?_⟩
      have hless := h₃'.less hhaste
      have hle := ((honward₄.trans h₅.toOnward).trans h₆.1).effort
      omega

theorem invoke_recursion {r : Rule} {body : Recursion} {e : Nat} {q : Int} (hT : T.Spelled)
    (hrecursion : RecursionSpec R T B choose k) (hr : Grammar.rules[n]? = some r)
    (hbody : r.body = .recursion body) (hq : q ∈ precedenceLevels) (h : Poised R T i p)
    (heffort : ∀ p₁, Kept T p p₁ → On T i p₁.core.stream → p₁.effort T ≤ e)
    (hfuel : B ∨ e * Grammar.levels + Grammar.phraseLevels n ≤ k + 1) :
    Ends (Broken B) (Rule.invoke Grammar.rules choose (k + 1) n q) p
      (Phrased R T B n i e p) fun _ _ => False := by
  have hn : n < 11 := (Array.getElem?_eq_some_iff.1 hr).1
  have htable := tabled hr hbody
  have hlevels := htable.levels
  have hrule : 0 ≤ r.kind.rule ∧ r.kind.rule < 11 := by
    have := htable.rule
    omega
  obtain ⟨f, p₁, hrun, hgood, hplace, hstack, hopened, hattached, hprec, hkept⟩ :=
    enterRecursion_ok h hrule htable.enter hq
  have hcallers : p₁.callers = ⟨n, p.core.state⟩ :: p.callers := by
    rw [callers_eq, hstack, List.map_cons, callers_eq, Frame.call, hopened.kind, hopened.invoking,
      htable.rule]
  have hle := heffort p₁ hkept (hplace ▸ hgood.on)
  have hhead : p₁.callers.head? = some ⟨n, p.core.state⟩ := by rw [hcallers]; rfl
  have hwork := followed_rescue (show p.stack.length + 1 = p₁.stack.length by rw [hstack]; rfl) hT hgood
    (hrecursion n r p.core.state f p.stack body p₁ hr hbody hgood hhead hstack hopened.parts hattached
      (levels_succ hfuel (by omega) hle))
  have hfinal := hwork.finish (exitRecursion p.stack.length)
    (R := fun _ => Phrased R T B n i e p) (fun _ p₂ h₂ => ?_) fun p₂ h₂ => exitRecursion_broken h₂ _
  · rw [Rule.invoke, hr]
    dsimp only
    rw [hbody]
    refine .bind_ok rfl (.bind_ok rfl (.bind_ok hrun (hfinal.bind fun x p₂ h₂ => ?_)))
    exact .pure h₂
  · obtain ⟨g, hs, _, htrail⟩ := h₂.carries.closed hstack hopened.parts
    have hprec₂ : p₂.core.precedences = q :: p.core.precedences := h₂.precedences.trans hprec
    obtain ⟨stop, p₃, hexit, hleft, hprec₃, hstack₃⟩ :=
      exitRecursion_ok h₂.good hs hprec₂ h.precedences.1
    exact .of_ok hexit ((hplace ▸ h₂ : Followed R T B n i false p.stack p₁ p₂).phrased hplace hs htrail
      (by rw [hcallers]; rfl) hkept hle hleft hprec₃ hstack₃)

end Recursion

/-- What was to be shown, for all work at so much fuel. -/
structure Specs (R : CacheCondition) (T : Tape) (B : Prop) (choose : Int → ParseM Int) (k : Nat) :
    Prop where
  sequence : SequenceSpec R T B choose k
  part : PartSpec R T B choose k
  rounds : RoundsSpec R T B choose k
  predicted : PredictedSpec R T B choose k
  invoke : InvokeSpec R T B choose k
  recursion : RecursionSpec R T B choose k
  suffixes : SuffixesSpec R T B choose k

theorem exhausted_ends {α : Type} {Q : α → Parser → Prop} {E : RecognitionError → Parser → Prop}
    (h : p.listeners = none) (hB : B) : Ends (Broken B) (throw (.fault .exhausted)) p Q E :=
  .of_fault rfl ⟨hB, h⟩

theorem specs_zero : Specs R T B choose 0 where
  sequence rule ps p _ hgood _ hfuel := by
    refine exhausted_ends hgood.listeners (hfuel.broken fun b hb => ?_)
    rcases hb with hb | ⟨hb, _⟩ <;> cases ps <;> simp_all [Part.fit, Part.fitsLed]
  part rule x p _ hgood _ hfuel := by
    refine exhausted_ends hgood.listeners (hfuel.broken fun b hb => ?_)
    cases x <;> simp only [Part.fits, Bool.and_eq_true, decide_eq_true_eq] at hb <;> omega
  rounds rule back first ps p _ _ _ hgood _ hfuel :=
    exhausted_ends hgood.listeners (hfuel.broken fun b hb => hb.1)
  predicted rule back d ps alt p _ _ _ _ hgood _ _ hfuel :=
    exhausted_ends hgood.listeners (hfuel.broken fun b hb => hb.1)
  invoke n r q i e p hr _ hpoised _ hfuel := by
    have hfits := Grammar.fits_rules hr
    simp only [Rule.fits, Bool.and_eq_true, decide_eq_true_eq] at hfits
    exact exhausted_ends hpoised.listeners (hfuel.resolve_right (by omega))
  recursion n r invoking f rest body p hr _ hgood _ _ _ _ hfuel := by
    have hfits := Grammar.fits_rules hr
    simp only [Rule.fits, Bool.and_eq_true, decide_eq_true_eq] at hfits
    exact exhausted_ends hgood.listeners (hfuel.broken fun b hb => by omega)
  suffixes n i r invoking f rest body alt p hr _ hgood _ _ _ _ _ hfuel := by
    have hfits := Grammar.fits_rules hr
    simp only [Rule.fits, Bool.and_eq_true, decide_eq_true_eq] at hfits
    exact exhausted_ends hgood.listeners (hfuel.broken fun b hb => by omega)

theorem specs (hT : T.Spelled) (hchoose : Chooses R T B choose) (k : Nat) : Specs R T B choose k := by
  induction k with
  | zero => exact specs_zero
  | succ k ih =>
    refine ⟨sequence_succ ih.part ih.sequence,
      part_succ hchoose ih.invoke ih.sequence ih.rounds ih.predicted,
      rounds_succ ih.sequence ih.rounds, predicted_succ hchoose ih.sequence ih.predicted, ?_,
      recursion_succ hchoose ih.sequence ih.suffixes, suffixes_succ hchoose ih.sequence ih.suffixes⟩
    intro n r q i e p hr hq hpoised heffort hfuel
    cases hbody : r.body with
    | sequence ps => exact invoke_sequence hT ih.sequence hr hpoised heffort hfuel hbody
    | choice s d as => exact invoke_choice hT ih.sequence hr hpoised heffort hfuel hchoose hbody
    | recursion body => exact invoke_recursion hT ih.recursion hr hbody hq hpoised heffort hfuel

end Parser

end Throbac
