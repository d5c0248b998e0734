import Throbac.Proofs.Parsing.Growth

/-!
# Following the rules

What a parser does when it follows a rule, whatever the input is and however it decides between
alternatives. It stays in good order, and every rule ends with a tree. As long as the log is empty the
tree is derived and has the tokens that were passed. Unless it is said that work may be broken off,
the fuel is enough, for the parser comes back to a rule only with less effort left.
-/
namespace Throbac

open TokenStream (On At Holds)

namespace Part

theorem lead_of_startsWith {ps : List Part} {xs : List Int} {y : Int} (h : startsWith ps xs = true)
    (hy : y ∈ xs) : y ≠ Symbol.eof ∧ lead y ps = true := by
  have := List.all_eq_true.1 h y hy
  simpa using this

end Part

namespace Parser

variable {R : CacheCondition} {T : Tape} {B : Prop} {choose : Int → ParseM Int} {p p' : Parser}

def here (T : Tape) (p : Parser) : Int := (T.token p.place).type

/-- The fuel is enough for work that fits a number of levels, unless work may be broken off. -/
def Fueled (T : Tape) (B : Prop) (p : Parser) (fits : Nat → Prop) (fuel : Nat) : Prop :=
  B ∨ ∃ b, p.effort T * Grammar.levels + b ≤ fuel ∧ fits b

namespace Fueled

variable {fits fits' : Nat → Prop} {k : Nat}

theorem broken (h : Fueled T B p fits 0) (hf : ∀ b, fits b → 1 ≤ b) : B := by
  rcases h with h | ⟨b, hb, h⟩
  · exact h
  · have := hf b h
    omega

theorem onward (h : Fueled T B p fits k) (ho : Onward R T p p') : Fueled T B p' fits k := by
  refine h.imp_right fun ⟨b, hb, h⟩ => ⟨b, ?_, h⟩
  have := Nat.mul_le_mul_right Grammar.levels ho.effort
  omega

theorem mono (h : Fueled T B p fits k) (hf : ∀ b, fits b → fits' b) : Fueled T B p fits' k :=
  h.imp_right fun ⟨b, hb, h⟩ => ⟨b, hb, hf b h⟩

theorem succ (h : Fueled T B p fits (k + 1)) (hf : ∀ b, fits b → 1 ≤ b ∧ fits' (b - 1)) :
    Fueled T B p fits' k := by
  refine h.imp_right fun ⟨b, hb, h⟩ => ⟨b - 1, ?_, (hf b h).2⟩
  have := (hf b h).1
  omega

theorem less (h : Fueled T B p fits k) (hlt : p'.effort T < p.effort T)
    (hf : fits' Grammar.levels) : Fueled T B p' fits' k := by
  refine h.imp_right fun ⟨b, hb, h⟩ => ⟨Grammar.levels, ?_, hf⟩
  have := Nat.mul_le_mul_right Grammar.levels (Nat.succ_le_of_lt hlt)
  rw [Nat.succ_mul] at this
  omega

theorem again (h : Fueled T B p fits (k + 1)) (hlt : p'.effort T < p.effort T) :
    Fueled T B p' fits k := by
  refine h.imp_right fun ⟨b, hb, h⟩ => ⟨b, ?_, h⟩
  have := Nat.mul_le_mul_right Grammar.levels (Nat.succ_le_of_lt hlt)
  rw [Nat.succ_mul, Grammar.levels] at this
  rw [Grammar.levels] at hb ⊢
  omega

end Fueled

def Within (p : Parser) (rule : Nat) : Prop := p.callers.head?.map Call.rule = some (rule : Int)

theorem Within.onward {rule : Nat} (h : Within p rule) (ho : Onward R T p p') : Within p' rule := by
  rw [Within, ho.callers]
  exact h

/-- The present token is one that the parts start with. -/
def Led (T : Tape) (p : Parser) (ps : List Part) : Prop :=
  here T p ≠ Symbol.eof ∧ Part.lead (here T p) ps = true

/-- Parts fit a number of levels, at all or because they start with the present token. -/
def FitsHere (T : Tape) (p : Parser) (ps : List Part) (b : Nat) : Prop :=
  Part.fit ps b = true ∨ (Part.fitsLed ps b = true ∧ Led T p ps)

/-- A phrase of a rule was read from the place `i` on, and the parser is back where it was called. -/
structure Passed (R : CacheCondition) (T : Tape) (n i : Nat) (p : Parser) (t : Option ParseTree)
    (p' : Parser) : Prop where
  ready : Ready R p'
  on : On T p'.place p'.core.stream
  place : i ≤ p'.place
  callers : p'.callers = p.callers
  precedences : p'.core.precedences = p.core.precedences
  recovering : p'.recovering = true → p'.core.reports ≠ #[]
  reports : ∃ rs, p'.core.reports = p.core.reports ++ rs
  tree : ∃ c, t = some c ∧ T.Trail i c.leaves p'.place ∧ p'.stack = p.stack.modifyHead (·.add c) ∧
    (p'.core.reports = #[] → c.rule? = some (n : Int) ∧ Derived c ∧ T.Walk i c.leaves p'.place)

/-- A rule has read its phrase with no more than the given effort, and with less where the phrase can
begin with what stands there. -/
def Phrased (R : CacheCondition) (T : Tape) (B : Prop) (n i e : Nat) (p : Parser) (t : Option ParseTree)
    (p' : Parser) : Prop :=
  Passed R T n i p t p' ∧ p'.effort T ≤ e ∧
    (¬ B ∧ (Grammar.phraseFirst n).contains (T.token i).type = true → p'.effort T < e)

section Specs

variable (R T B choose)

/-- Whether parts of the rule stand where they should. -/
abbrev Placed (rule : Nat) (ps : List Part) : Prop :=
  Part.arePlaced Grammar.parserNetwork.state 160 Grammar.parserNetwork.width rule ps = true

abbrev PlacedPart (rule : Nat) (x : Part) : Prop :=
  Part.isPlaced Grammar.parserNetwork.state 160 Grammar.parserNetwork.width rule x = true

def SequenceSpec (k : Nat) : Prop :=
  ∀ (rule : Nat) (ps : List Part) (p : Parser), Placed rule ps → Good R T p → Within p rule →
    Fueled T B p (FitsHere T p ps) k →
    Ends (Broken B) (Rule.sequence Grammar.rules choose k ps) p
      (fun _ p' => Advance R T (Part.items ps) (¬ B ∧ Led T p ps) p p') (Failed R T p)

def PartSpec (k : Nat) : Prop :=
  ∀ (rule : Nat) (x : Part) (p : Parser), PlacedPart rule x → Good R T p → Within p rule →
    Fueled T B p (fun b => x.fits b = true) k →
    Ends (Broken B) (Rule.part Grammar.rules choose k x) p
      (fun _ p' => Advance R T [x.item]
        (¬ B ∧ here T p ≠ Symbol.eof ∧ x.leads (here T p) = true) p p')
      (Failed R T p)

def RoundsSpec (k : Nat) : Prop :=
  ∀ (rule : Nat) (back : Int) (first : List Int) (ps : List Part) (p : Parser),
    Part.isState 160 back = true → Placed rule ps → (¬ B → Part.startsWith ps first = true) →
    Good R T p → Within p rule → Fueled T B p (fun b => 1 ≤ b ∧ Part.fitsLed ps (b - 1) = true) k →
    Ends (Broken B) (Rule.rounds Grammar.rules choose k back first ps) p
      (fun _ p' => Advance R T [.many (Part.items ps)]
        (¬ B ∧ first.contains (here T p) = true) p p')
      (Failed R T p)

/-- The alternative is one of `count`, and unless work may be broken off, one that can start with the
present token. -/
def Chosen (d alt : Int) (count : Nat) (p : Parser) : Prop :=
  (1 ≤ alt ∧ alt ≤ count) ∧ (¬ B → ∀ xs, Grammar.opening d alt = some xs → here T p ∈ xs)

def PredictedSpec (k : Nat) : Prop :=
  ∀ (rule : Nat) (back d : Int) (ps : List Part) (alt : Int) (p : Parser),
    Part.isState 160 back = true → Part.isDecision Grammar.parserNetwork.width rule 2 d = true →
    Placed rule ps → (¬ B → (Grammar.opening d 1).any (Part.startsWith ps) = true) →
    Good R T p → Within p rule → Chosen T B d alt 2 p →
    Fueled T B p (fun b => 1 ≤ b ∧ Part.fitsLed ps (b - 1) = true) k →
    Ends (Broken B) (Rule.predictedRounds Grammar.rules choose k back d ps alt) p
      (fun _ p' => Advance R T [.many (Part.items ps)] False p p') (Failed R T p)

def InvokeSpec (k : Nat) : Prop :=
  ∀ (n : Nat) (r : Rule) (q : Int) (i e : Nat) (p : Parser), Grammar.rules[n]? = some r →
    q ∈ precedenceLevels → Poised R T i p →
    (∀ p₁, Kept T p p₁ → On T i p₁.core.stream → p₁.effort T ≤ e) →
    (B ∨ e * Grammar.levels + Grammar.phraseLevels n ≤ k) →
    Ends (Broken B) (Rule.invoke Grammar.rules choose k n q) p
      (Phrased R T B n i e p) fun _ _ => False

end Specs

theorem here_eq (h : p'.place = p.place) : here T p' = here T p := by rw [here, h, here]

theorem leads_of_isFirm {x : Part} {ps : List Part} {y : Int} (hx : x.isFirm = true)
    (h : Part.lead y (x :: ps) = true) : x.leads y = true := by
  cases x <;> simp_all [Part.isFirm, Part.lead, Part.idles]

theorem sequence_succ {k : Nat} (hpart : PartSpec R T B choose k)
    (hseq : SequenceSpec R T B choose k) : SequenceSpec R T B choose (k + 1) := by
  intro rule ps p hplaced hgood hwithin hfuel
  cases ps with
  | nil =>
    exact .pure ((Advance.nil hgood).mono (fun _ _ h => h) fun h => by simp [Led, Part.lead] at h)
  | cons x ps =>
    rw [Placed, Part.arePlaced, Bool.and_eq_true] at hplaced
    rw [Rule.sequence]
    have hx : Fueled T B p (fun b => x.fits b = true) k := by
      refine hfuel.succ fun b hb => ?_
      rcases hb with hb | ⟨hb, _⟩
      · simp only [Part.fit, Bool.and_eq_true, decide_eq_true_eq] at hb
        exact hb.1
      · simp only [Part.fitsLed, Bool.and_eq_true, decide_eq_true_eq] at hb
        exact hb.1
    refine (hpart rule x p hplaced.1 hgood hwithin hx).bind fun _ p₁ h₁ => ?_
    -- what is left fits anyway, or because less effort is left
    have hrest : Fueled T B p₁ (FitsHere T p₁ ps) k := by
      by_cases hB : B
      · exact .inl hB
      obtain ⟨b, hb, hfit | ⟨hfit, hled⟩⟩ := hfuel.resolve_left hB
      · simp only [Part.fit, Bool.and_eq_true, decide_eq_true_eq] at hfit
        exact Fueled.onward (.inr ⟨b - 1, by omega, .inl hfit.2⟩) h₁.toOnward
      · simp only [Part.fitsLed, Bool.and_eq_true, Bool.or_eq_true, decide_eq_true_eq] at hfit
        rcases hfit.2 with hfit' | ⟨hfirm, hfit'⟩
        · exact Fueled.onward (.inr ⟨b - 1, by omega, .inl hfit'⟩) h₁.toOnward
        · exact hx.less (h₁.less ⟨hB, hled.1, leads_of_isFirm hfirm hled.2⟩) (.inl hfit')
    refine (hseq rule ps p₁ hplaced.2 h₁.good (hwithin.onward h₁.toOnward) hrest).mono
      (fun _ p₂ h₂ => ?_) fun _ _ hf => hf.after h₁.toOnward
    refine { h₁.append h₂ with less := ?_ }
    rintro ⟨hB, heof, hlead⟩
    have heffort := h₂.effort
    simp only [Part.lead, Bool.or_eq_true, Bool.and_eq_true] at hlead
    rcases hlead with hleads | ⟨_, hlead⟩
    · exact Nat.lt_of_le_of_lt heffort (h₁.less ⟨hB, heof, hleads⟩)
    · rcases h₁.place_eq_or_lt hgood with hplace | hlt
      · rw [← here_eq (T := T) hplace] at heof hlead
        exact Nat.lt_of_lt_of_le (h₂.less ⟨hB, heof, hlead⟩) h₁.effort
      · exact Nat.lt_of_le_of_lt heffort hlt

theorem eof_iff (h : Steady R T p) : here T p = Symbol.eof ↔ p.place = T.last := by
  have hend := Tape.isEof_token h.le
  rw [Token.isEof] at hend
  rw [here, ← beq_iff_eq, hend, decide_eq_true_iff]

theorem Shift.here_eq (h : Still R T p p') : here T p' = here T p := Parser.here_eq h.place

/-- The parser went to a state and checked what comes next. -/
structure Arrived (R : CacheCondition) (T : Tape) (p p' : Parser) : Prop extends
    Onward R T p p' where
  kept : p'.core.reports = #[] → p'.stack = p.stack ∧ p'.place = p.place
  unbegun : Unbegun p → Unbegun p'

theorem Arrived.still (h : Arrived R T p p') (hs : Still R T p' p'') : Arrived R T p p'' where
  toOnward := h.toOnward.trans (hs.onward_still h.good)
  kept hc := by
    have hk := h.kept ((hs.onward_still h.good).clean hc)
    exact ⟨hs.stack.trans hk.1, hs.place.trans hk.2⟩
  unbegun hu := (h.unbegun hu).of_stack hs.stack

theorem arrive_ends {α : Type} {F : Parser → Prop} {n : Int} {m : ParseM α} {Q : α → Parser → Prop}
    (h : Good R T p) (hn : Part.isState 160 n = true)
    (hm : ∀ p', Arrived R T p p' → Ends F m p' Q (Failed R T p)) :
    Ends F (setState n >>= fun _ => sync >>= fun _ => m) p Q (Failed R T p) := by
  have hset := h.setState hn
  refine .bind_ok rfl (((sync_ends hset.good).mono (fun _ _ hq => hq) fun _ _ hf =>
    hf.after hset).bind fun _ p' hchecked => hm p' ⟨hset.trans hchecked.toOnward, fun hc => ?_,
      fun hu => hchecked.unbegun (hu.of_stack rfl)⟩)
  have hstill := hchecked.still hc
  exact ⟨hstill.stack, hstill.place⟩

theorem Advance.round {is : List Item} {a b c : Prop} (h : Advance R T is a p p') (harr : Arrived R T p' p'')
    {p₃ : Parser} (h' : Advance R T [.many is] b p'' p₃) (hc : c → a) :
    Advance R T [.many is] c p p₃ := by
  refine (h.append (h'.after harr.toOnward harr.kept (b := False) fun hf => hf.elim)).mono
    (fun _ _ h => .round h) fun h => .inl (hc h)

theorem rounds_succ {k : Nat} (hseq : SequenceSpec R T B choose k)
    (hrounds : RoundsSpec R T B choose k) : RoundsSpec R T B choose (k + 1) := by
  intro rule back first ps p hback hplaced hstarts hgood hwithin hfuel
  obtain ⟨p₁, hsymbol, hstill⟩ := hgood.symbol_one
  have hgood₁ := hstill.good hgood
  have honward₁ := hstill.onward_still hgood
  have hhere : (T.token p.place).type = here T p₁ := hstill.here_eq.symm
  rw [Rule.rounds]
  refine .bind_ok hsymbol ?_
  suffices h : Ends (Broken B) _ p₁ (fun _ p' => Advance R T [.many (Part.items ps)]
      (¬ B ∧ first.contains (here T p₁) = true) p₁ p') (Failed R T p₁) from
    h.mono (fun _ p' h' => h'.after honward₁ (fun _ => ⟨hstill.stack, hstill.place⟩) fun h => by
      rwa [hstill.here_eq]) fun _ _ hf => hf.after honward₁
  rw [hhere]
  split
  · next hfirst =>
    have hled : ¬ B → Led T p₁ ps := fun hB =>
      Part.lead_of_startsWith (hstarts hB) (List.contains_iff_mem.1 hfirst)
    have hparts : Fueled T B p₁ (FitsHere T p₁ ps) k := by
      by_cases hB : B
      · exact .inl hB
      · exact (hfuel.onward honward₁).succ fun b hb => ⟨hb.1, .inr ⟨hb.2, hled hB⟩⟩
    have hwithin₁ := hwithin.onward honward₁
    refine (hseq rule ps p₁ hplaced hgood₁ hwithin₁ hparts).bind fun _ p₂ h₂ => ?_
    refine Ends.mono (arrive_ends h₂.good hback fun p₃ h₃ => ?_) (fun _ _ hq => hq)
      fun _ _ hf => hf.after h₂.toOnward
    have hfuel₃ : Fueled T B p₃ (fun b => 1 ≤ b ∧ Part.fitsLed ps (b - 1) = true) k := by
      by_cases hB : B
      · exact .inl hB
      · exact ((hfuel.onward honward₁).again (h₂.less ⟨hB, hled hB⟩)).onward h₃.toOnward
    have hwithin₃ := (hwithin₁.onward h₂.toOnward).onward h₃.toOnward
    exact (hrounds rule back first ps p₃ hback hplaced hstarts h₃.good hwithin₃ hfuel₃).mono
      (fun _ p₄ h₄ => h₂.round h₃ h₄ fun h => ⟨h.1, hled h.1⟩) fun _ _ hf => hf.after h₃.toOnward
  · next hfirst =>
    refine .pure ⟨.refl hgood₁, fun _ => ?_, fun h => absurd h.2 hfirst⟩
    exact (Added.nil rfl hgood₁.stack_ne_nil rfl).mono fun _ _ h => .done h

theorem choose_ends (hchoose : Chooses R T B choose) {rule count : Nat} {d : Int}
    (hd : Part.isDecision Grammar.parserNetwork.width rule count d = true) (h : Good R T p)
    (hwithin : Within p rule) :
    Ends (Broken B) (choose d) p (fun alt p' => Still R T p p' ∧ Chosen T B d alt count p')
      (Failed R T p) := by
  simp only [Part.isDecision, Bool.and_eq_true, decide_eq_true_eq, beq_iff_eq] at hd
  refine (hchoose d rule p hd.1 h hwithin).mono (fun alt p' hq => ⟨hq.1, ?_⟩) fun _ _ hf => hf
  rw [hd.2] at hq
  refine ⟨hq.2.1, fun hB xs hxs => ?_⟩
  rw [hq.1.here_eq]
  exact hq.2.2 hB xs hxs

theorem decide_ends {α : Type} {rule count : Nat} {n d : Int} {m : Int → ParseM α}
    {Q : α → Parser → Prop} (hchoose : Chooses R T B choose) (h : Good R T p) (hwithin : Within p rule)
    (hn : Part.isState 160 n = true)
    (hd : Part.isDecision Grammar.parserNetwork.width rule count d = true)
    (hm : ∀ alt p', Arrived R T p p' → Within p' rule → Chosen T B d alt count p' →
      Ends (Broken B) (m alt) p' Q (Failed R T p')) :
    Ends (Broken B) (setState n >>= fun _ => sync >>= fun _ => choose d >>= m) p Q (Failed R T p) := by
  refine arrive_ends h hn fun p₁ h₁ => ?_
  have hwithin₁ := hwithin.onward h₁.toOnward
  refine Ends.mono ((choose_ends hchoose hd h₁.good hwithin₁).bind fun alt p₂ h₂ => ?_)
    (fun _ _ hq => hq) fun _ _ hf => hf.after h₁.toOnward
  have honward₂ := h₂.1.onward_still h₁.good
  exact (hm alt p₂ (h₁.still h₂.1) (hwithin₁.onward honward₂) h₂.2).mono (fun _ _ hq => hq)
    fun _ _ hf => hf.after honward₂

theorem predicted_succ {k : Nat} (hchoose : Chooses R T B choose) (hseq : SequenceSpec R T B choose k)
    (hpredicted : PredictedSpec R T B choose k) : PredictedSpec R T B choose (k + 1) := by
  intro rule back d ps alt p hback hd hplaced hstarts hgood hwithin hchosen hfuel
  rw [Rule.predictedRounds]
  split
  · refine .pure ⟨.refl hgood, fun _ => ?_, fun h => h.elim⟩
    exact (Added.nil rfl hgood.stack_ne_nil rfl).mono fun _ _ h => .done h
  · next halt =>
    obtain rfl : alt = 1 := by
      have := hchosen.1
      omega
    rw [if_pos rfl]
    have hled : ¬ B → Led T p ps := by
      intro hB
      obtain ⟨xs, hxs, hstarts⟩ := (Option.any_eq_true _ _).1 (hstarts hB)
      exact Part.lead_of_startsWith hstarts (hchosen.2 hB xs hxs)
    have hparts : Fueled T B p (FitsHere T p ps) k := by
      by_cases hB : B
      · exact .inl hB
      · exact hfuel.succ fun b hb => ⟨hb.1, .inr ⟨hb.2, hled hB⟩⟩
    refine (hseq rule ps p hplaced hgood hwithin hparts).bind fun _ p₁ h₁ => ?_
    refine Ends.mono (decide_ends hchoose h₁.good (hwithin.onward h₁.toOnward) hback hd
      fun alt p₂ h₂ hwithin₂ hchosen₂ => ?_) (fun _ _ hq => hq) fun _ _ hf => hf.after h₁.toOnward
    have hfuel₂ : Fueled T B p₂ (fun b => 1 ≤ b ∧ Part.fitsLed ps (b - 1) = true) k := by
      by_cases hB : B
      · exact .inl hB
      · exact (hfuel.again (h₁.less ⟨hB, hled hB⟩)).onward h₂.toOnward
    exact (hpredicted rule back d ps alt p₂ hback hd hplaced hstarts h₂.good hwithin₂ hchosen₂
      hfuel₂).mono (fun _ p₃ h₃ => h₁.round h₂ h₃ fun h => h.elim) fun _ _ hf => hf

theorem added_leaf {is : List Item} {o : Option Token} {f : Frame → Frame} (h : Good R T p)
    (hnext : p'.place = T.seek (p.place + 1)) (hstack : p'.stack = p.stack.modifyHead f)
    (hgrows : ∀ t, Frame.Grows [plainLeaf T p] o t (f t)) (hc : Consists is [plainLeaf T p] o) :
    Added T is p p' := by
  obtain ⟨t, rest, hs⟩ := List.exists_cons_of_ne_nil h.stack_ne_nil
  refine ⟨_, o, t, f t, rest, hs, by rw [hstack, hs]; rfl, hgrows t, hc, ?_, ?_⟩
  · exact List.forall_mem_singleton.2 (.leaf _)
  · rw [hnext, List.flatMap_singleton, plainLeaf, ParseTree.leaves_leaf]
    exact .single

theorem edge_of_isSome {net : Network} {n : Nat} (h : (net.state n).edges[0]?.isSome = true) :
    ∃ edge, (net.edges n)[0]? = some edge := Option.isSome_iff_exists.1 h

theorem token_ends {n x : Int} (h : Good R T p) (hn : Part.isState 160 n = true)
    (hedge : (Grammar.parserNetwork.state n.toNat).edges[0]?.isSome = true) :
    Ends (Broken B) (setState n >>= fun _ => matchType x >>= fun _ => pure ()) p
      (fun _ p' => Advance R T [.token x] (here T p ≠ Symbol.eof ∧ x = here T p) p p')
      (Failed R T p) := by
  have hset := h.setState hn
  refine .bind_ok rfl (((matchType_ends hset.good x (edge_of_isSome hedge)).mono
    (fun _ _ hq => hq) fun _ _ hf => hf.after hset).bind fun _ p' hq => .pure ?_)
  obtain ⟨honward, ⟨hx, hmatched, hstack⟩ | ⟨hx, hmarked⟩⟩ := hq
  · have hadded : Added T [.token x] p p' :=
      added_leaf h hmatched.next hstack (fun t => .add t _) (.token hx .nil)
    refine ⟨hset.trans honward, fun _ => hadded, fun hhere => ?_⟩
    exact (effort_next h honward.good hmatched.next).2 fun hlast =>
      hhere.1 ((eof_iff h.toSteady).2 hlast)
  · exact ⟨hset.trans honward, fun hc => absurd hc hmarked, fun hhere => absurd hhere.2.symm hx⟩

theorem operator_ends {n : Int} {xs : List Int} (h : Good R T p) (hn : Part.isState 160 n = true)
    (hedge : (Grammar.parserNetwork.state n.toNat).edges[0]?.isSome = true) :
    Ends (Broken B) (setState n >>= fun _ => Rule.readOperator xs) p
      (fun _ p' => Advance R T [.operator xs]
        (here T p ≠ Symbol.eof ∧ xs.contains (here T p) = true) p p')
      (Failed R T p) := by
  have hset := h.setState hn
  refine .bind_ok rfl ((readOperator_ends hset.good xs (edge_of_isSome hedge)).mono
    (fun _ p' hq => ?_) fun _ _ hf => hf.after hset)
  obtain ⟨honward, ⟨hx, hmatched, hstack⟩ | ⟨hx, hmarked⟩⟩ := hq
  · have hadded : Added T [.operator xs] p p' := by
      refine added_leaf h hmatched.next hstack (o := some (T.token p.place))
        (fun t => ⟨rfl, rfl, rfl, rfl, rfl, rfl⟩) (.operator (o := none) ?_ .nil)
      exact List.contains_iff_mem.1 hx
    refine ⟨hset.trans honward, fun _ => hadded, fun hhere => ?_⟩
    exact (effort_next h honward.good hmatched.next).2 fun hlast =>
      hhere.1 ((eof_iff h.toSteady).2 hlast)
  · refine ⟨hset.trans honward, fun hc => absurd hc hmarked, fun hhere => ?_⟩
    exact absurd (hx.symm.trans hhere.2) Bool.false_ne_true

theorem invoked_of_isCall {net : Network} {size rule : Nat} {q n : Int} {cs : List Int}
    (hsize : net.states.size = size) (hn : Part.isState size n = true)
    (hcall : Part.isCall net.state size rule q n = true) (h : Invoked net cs) : Invoked net (n :: cs) := by
  simp only [Part.isState, Bool.and_eq_true, decide_eq_true_eq] at hn
  rw [Part.isCall] at hcall
  split at hcall
  · next hedge =>
    simp only [Bool.and_eq_true, decide_eq_true_eq] at hcall
    have hcalls := Invoked.call (show n.toNat < net.states.size by omega) (hsize ▸ hcall.2) hedge h
    rwa [Int.toNat_of_nonneg hn.1] at hcalls
  · cases hcall

theorem Good.poised (h : Good R T p) {n : Int} {rule : Nat} {q : Int}
    (hn : Part.isState 160 n = true)
    (hcall : Part.isCall Grammar.parserNetwork.state 160 rule q n = true) :
    Poised R T p.place { p with core := { p.core with state := n } } :=
  { (h.setState hn).good with
    located := .inl h.on
    invoked := invoked_of_isCall Grammar.parserNetwork_size hn hcall h.invoked }

theorem Passed.onward {n : Nat} {t : Option ParseTree} (h : Passed R T n p.place p t p')
    (hg : Good R T p) (he : p'.effort T ≤ p.effort T) : Onward R T p p' where
  good := { h.ready with
    on := h.on
    invoked := by rw [h.callers]; exact hg.invoked
    recovering := h.recovering }
  callers := h.callers
  precedences := h.precedences
  place := h.place
  reports := h.reports
  effort := he
  carries := by
    obtain ⟨c, _, htrail, hstack, _⟩ := h.tree
    exact .of_add hg.stack_ne_nil hstack htrail

theorem phrase_ends {k n : Nat} {s q : Int} (hinvoke : InvokeSpec R T B choose k) (h : Good R T p)
    (hs : Part.isState 160 s = true)
    (hcall : Part.isCall Grammar.parserNetwork.state 160 n q s = true) (hn : n < 11)
    (hq : q ∈ precedenceLevels) (hfuel : Fueled T B p (fun b => Grammar.phraseLevels n ≤ b) k) :
    Ends (Broken B)
      (setState s >>= fun _ => Rule.invoke Grammar.rules choose k n q >>= fun _ => pure ()) p
      (fun _ p' => Advance R T [.phrase n]
        (¬ B ∧ (Grammar.phraseFirst n).contains (here T p) = true) p p') (Failed R T p) := by
  have hset := h.setState hs
  have hr : Grammar.rules[n]? = some Grammar.rules[n] := Array.getElem?_eq_getElem hn
  have heffort : ∀ p₁ : Parser, Kept T { p with core := { p.core with state := s } } p₁ →
      On T p.place p₁.core.stream → p₁.effort T ≤ p.effort T := fun p₁ hkept hon =>
    Nat.le_of_eq (hkept.effort h.on hon)
  have hinvoked := hinvoke n _ q p.place (p.effort T) _ hr hq (h.poised hs hcall) heffort
    (hfuel.imp_right fun ⟨b, hb, hle⟩ => by omega)
  refine .bind_ok rfl (Ends.bind (hinvoked.mono (fun _ _ hq => hq) fun _ _ hf => hf.elim)
    fun t p' ⟨hpassed, hle, hless⟩ => .pure ?_)
  have honward := hset.trans (hpassed.onward hset.good hle)
  refine ⟨honward, fun hc => ?_, hless⟩
  obtain ⟨c, _, _, hstack, hclean⟩ := hpassed.tree
  obtain ⟨hrule, hderived, hwalk⟩ := hclean hc
  obtain ⟨f, rest, hf⟩ := List.exists_cons_of_ne_nil h.stack_ne_nil
  refine ⟨[c], none, f, f.add c, rest, hf, ?_, .add f c, .phrase hrule .nil,
    List.forall_mem_singleton.2 hderived, ?_⟩
  · rw [hstack, hf]
    rfl
  · rw [List.flatMap_singleton]
    exact hwalk

theorem Advance.arrived {is : List Item} {a b : Prop} (h : Advance R T is a p' p'')
    (harr : Arrived R T p p') (hg : Good R T p) (hb : b → here T p' = here T p → a) :
    Advance R T is b p p'' := by
  refine { h.after harr.toOnward harr.kept (b := False) fun hf => hf.elim with less := fun hb' => ?_ }
  rcases harr.place_eq_or_lt hg with hplace | hlt
  · exact Nat.lt_of_lt_of_le (h.less (hb hb' (here_eq hplace))) harr.effort
  · exact Nat.lt_of_le_of_lt h.effort hlt

theorem part_succ {k : Nat} (hchoose : Chooses R T B choose) (hinvoke : InvokeSpec R T B choose k)
    (hseq : SequenceSpec R T B choose k) (hrounds : RoundsSpec R T B choose k)
    (hpredicted : PredictedSpec R T B choose k) : PartSpec R T B choose (k + 1) := by
  intro rule x p hplaced hgood hwithin hfuel
  cases x with
  | token n x =>
    simp only [PlacedPart, Part.isPlaced, Bool.and_eq_true] at hplaced
    rw [Rule.part]
    refine (token_ends hgood hplaced.1 hplaced.2).mono (fun _ _ h => h.mono (fun _ _ h => h) ?_)
      fun _ _ hf => hf
    simp only [Part.leads, beq_iff_eq]
    exact fun h => h.2
  | operator n xs =>
    simp only [PlacedPart, Part.isPlaced, Bool.and_eq_true] at hplaced
    rw [Rule.part]
    exact (operator_ends hgood hplaced.1 hplaced.2).mono
      (fun _ _ h => h.mono (fun _ _ h => h) fun h => h.2) fun _ _ hf => hf
  | phrase n called q =>
    simp only [PlacedPart, Part.isPlaced, Bool.and_eq_true, decide_eq_true_eq] at hplaced
    rw [Rule.part]
    have hlevels : Fueled T B p (fun b => Grammar.phraseLevels called ≤ b) k := by
      refine hfuel.succ fun b hb => ?_
      simp only [Part.fits, decide_eq_true_eq] at hb
      omega
    exact (phrase_ends hinvoke hgood hplaced.1.1.1 hplaced.1.1.2 hplaced.1.2 hplaced.2 hlevels).mono
      (fun _ _ h => h.mono (fun _ _ h => h) fun h => ⟨h.1, h.2.2⟩) fun _ _ hf => hf
  | optional n first ps =>
    simp only [PlacedPart, Part.isPlaced, Bool.and_eq_true] at hplaced
    rw [Rule.part]
    refine arrive_ends hgood hplaced.1 fun p₁ h₁ => ?_
    obtain ⟨p₂, hsymbol, hstill⟩ := h₁.good.symbol_one
    have h₂ := h₁.still hstill
    refine .bind_ok hsymbol ?_
    rw [show (T.token p₁.place).type = here T p₂ from hstill.here_eq.symm]
    split
    · next hfirst =>
      have hstarts : B ∨ Led T p₂ ps := by
        refine hfuel.imp_right fun hlevels => ?_
        obtain ⟨b, _, hb⟩ := hlevels
        simp only [Part.fits, Bool.and_eq_true] at hb
        exact Part.lead_of_startsWith hb.1.2 (List.contains_iff_mem.1 hfirst)
      have hparts : Fueled T B p₂ (FitsHere T p₂ ps) k := by
        rcases hstarts with hB | hled
        · exact .inl hB
        · refine (hfuel.onward h₂.toOnward).succ fun b hb => ?_
          simp only [Part.fits, Bool.and_eq_true, decide_eq_true_eq] at hb
          exact ⟨hb.1.1, .inr ⟨hb.2, hled⟩⟩
      refine (hseq rule ps p₂ hplaced.2 h₂.good (hwithin.onward h₂.toOnward) hparts).mono
        (fun _ p₃ h₃ => ?_) fun _ _ hf => hf.after h₂.toOnward
      refine (h₃.arrived h₂ hgood fun hB _ => ⟨hB.1, hstarts.resolve_left hB.1⟩).mono
        (fun _ _ h => .take (by simpa using h)) fun h => h
    · next hfirst =>
      refine .pure ?_
      have hnil : Advance R T [] (first.contains (here T p₂) = true) p₂ p₂ :=
        (Advance.nil h₂.good).mono (fun _ _ h => h) fun h => hfirst h
      refine (hnil.arrived h₂ hgood fun hlead heq => ?_).mono (fun _ _ h => .skip h) fun h => h
      simp only [Part.leads, Bool.and_eq_true] at hlead
      rw [heq]
      exact hlead.2.2.1
  | many n back first ps =>
    simp only [PlacedPart, Part.isPlaced, Bool.and_eq_true] at hplaced
    rw [Rule.part]
    refine arrive_ends hgood hplaced.1.1 fun p₁ h₁ => ?_
    have hstarts : ¬ B → Part.startsWith ps first = true := by
      intro hB
      obtain ⟨b, _, hb⟩ := hfuel.resolve_left hB
      simp only [Part.fits, Bool.and_eq_true] at hb
      exact hb.1.2
    have hloop : Fueled T B p₁ (fun b => 1 ≤ b ∧ Part.fitsLed ps (b - 1) = true) k := by
      refine (hfuel.onward h₁.toOnward).succ fun b hb => ?_
      simp only [Part.fits, Bool.and_eq_true, decide_eq_true_eq] at hb
      exact ⟨by omega, by omega, by rw [Nat.sub_sub]; exact hb.2⟩
    refine (hrounds rule back first ps p₁ hplaced.1.2 hplaced.2 hstarts h₁.good
      (hwithin.onward h₁.toOnward) hloop).mono (fun _ p₂ h₂ => ?_) fun _ _ hf => hf.after h₁.toOnward
    refine h₂.arrived h₁ hgood fun hlead heq => ⟨hlead.1, ?_⟩
    simp only [Part.leads, Bool.and_eq_true] at hlead
    rw [heq]
    exact hlead.2.2.1
  | manyPredicted n back d ps =>
    simp only [PlacedPart, Part.isPlaced, Bool.and_eq_true] at hplaced
    rw [Rule.part]
    refine decide_ends hchoose hgood hwithin hplaced.1.1.1 hplaced.1.2
      fun alt p₁ h₁ hwithin₁ hchosen => ?_
    have hstarts : ¬ B → (Grammar.opening d 1).any (Part.startsWith ps) = true := by
      intro hB
      obtain ⟨b, _, hb⟩ := hfuel.resolve_left hB
      simp only [Part.fits, Bool.and_eq_true] at hb
      exact hb.1.2
    have hloop : Fueled T B p₁ (fun b => 1 ≤ b ∧ Part.fitsLed ps (b - 1) = true) k := by
      refine (hfuel.onward h₁.toOnward).succ fun b hb => ?_
      simp only [Part.fits, Bool.and_eq_true, decide_eq_true_eq] at hb
      exact ⟨by omega, by omega, by rw [Nat.sub_sub]; exact hb.2⟩
    refine (hpredicted rule back d ps alt p₁ hplaced.1.1.2 hplaced.1.2 hplaced.2 hstarts h₁.good
      hwithin₁ hchosen hloop).mono (fun _ p₂ h₂ => ?_) fun _ _ hf => hf
    exact h₂.arrived h₁ hgood fun hlead _ => by simp [Part.leads] at hlead

end Parser

end Throbac
