import Throbac.Proofs.Lookahead.Search

/-!
# Lookahead is exact

In a network of a grammar where no rule calls itself before something is read and all complements can
be taken without a loss, the symbols found at a state are just those that can be read first: within
the rule, with a mark if its end can be reached before anything is read, or under a stack of callers,
with the end of the input if the outermost rule can be left.
-/
namespace Throbac

/-- The return states of rules in progress, by their invoking states, the innermost first. -/
inductive Returns (net : Network) : List Int → List Nat → Prop
  | outermost (c : Int) : Returns net [c] []
  | call {n follow : Nat} {rule precedence : Int} {cs : List Int} {γ : List Nat} : n < net.states.size →
    follow < net.states.size → (net.edges n)[0]?.map Edge.label = some (.call rule precedence follow) →
    Returns net cs γ → Returns net ((n : Int) :: cs) (follow :: γ)

namespace Returns

variable {net : Network} {cs : List Int} {γ : List Nat}

theorem lt_size (h : Returns net cs γ) : (∀ r ∈ γ, r < net.states.size) ∧ γ.length ≤ cs.length ∧ cs ≠ [] := by
  induction h with
  | outermost => simp
  | call _ hfollow _ _ ih =>
    exact ⟨List.forall_mem_cons.2 ⟨hfollow, ih.1⟩, Nat.succ_le_succ ih.2.1, List.cons_ne_nil _ _⟩

theorem ofInvocations (hsmall : (net.states.size : Int) ≤ StackContext.bottom) (h : Returns net cs γ) :
    StackContext.ofInvocations net cs = .ok (.ofList .empty γ) := by
  induction h with
  | outermost c => rfl
  | @call n follow rule precedence cs γ hn hfollow hcall hrest ih =>
    have hpush := Lookahead.Bottom.called.push_ofList (r := follow) (by omega) γ
    obtain ⟨c, cs, rfl⟩ := List.exists_cons_of_ne_nil hrest.lt_size.2.2
    rw [StackContext.ofInvocations, ih]
    · simp only [bind, Except.bind, Lookahead.stateAt_natCast hn, Invoked.followOf hcall, hpush]
      rfl
    · simp

end Returns

namespace Lookahead

variable {net : Network} {root : StackContext} {mark : Int}

theorem explore_exact (hf : net.Formed) (hfits : net.Fits) (hroot : Bottom root mark) {n k : Nat}
    {γ : List Nat} (hn : n < net.states.size) (hγ : ∀ r ∈ γ, r < net.states.size) (hk : γ.length ≤ k) :
    ∃ s, explore net none (bound net k) n (.ofList root γ) [] {} = .ok ⟨⟩ s ∧ SymbolSet.Apart s.look.parts ∧
      (∀ x, s.look.Contains x → net.Meets (n, γ) x ∨ x = mark ∧ net.Ends (n, γ)) ∧
      (net.NoLeftRecursion → ∀ x, net.Meets (n, γ) x ∨ x = mark ∧ net.Ends (n, γ) → s.look.Contains x) := by
  have hpending : Pending net γ (n, γ) [] [] := ⟨⟨0, rfl⟩, rfl, .nil, by simp, by simp, by simp⟩
  have hroom : room net root γ {} < bound net k := by
    refine Nat.lt_of_le_of_lt (Finset.card_le_card Finset.sdiff_subset) ?_
    exact Nat.lt_of_le_of_lt (List.toFinset_card_le _) (length_places net root γ hk)
  obtain ⟨s, hgo, hsound, hadv, hplace⟩ := explore_spec hf hfits hroot hγ hpending hn .refl hroom
    ⟨SymbolSet.apart_nil, fun x hx => absurd hx SymbolSet.held_nil⟩
  refine ⟨s, hgo, hsound.apart, hsound.found, fun hrec x hx => ?_⟩
  have hdone : ∀ c, place root c ∈ s.busy → Done net root mark s c := fun c hc => hadv.done hrec c hc (by simp)
  have hall : ∀ {d}, net.Glides (n, γ) d → place root d ∈ s.busy := by
    intro d hd
    induction hd with
    | refl => exact hplace
    | tail _ hmove ih => exact (hdone _ ih).moves _ hmove
  rcases hx with ⟨d, hd, hstop, e, he, hreads⟩ | ⟨rfl, m, hm, hstop⟩
  · exact (hdone d (hall hd)).reads hstop e he x hreads
  · exact (hdone _ (hall hm)).ends hstop rfl

end Lookahead

namespace Network

variable {net : Network}

theorem Formed.eof_le (hf : net.Formed) {c : Nat × List Nat} {x : Int} (h : net.Meets c x) : Symbol.eof ≤ x := by
  obtain ⟨d, -, hstop, e, he, hreads⟩ := h
  exact Label.eof_le_of_reads (hf.labels _ hstop e he) hreads

theorem look_alone (hf : net.Formed) (hfits : net.Fits) {n : Nat} (hn : n < net.states.size) :
    ∃ s, net.look n none none = .ok s ∧ SymbolSet.Apart s.parts ∧
      (∀ x, s.Contains x → net.Meets (n, []) x ∨ x = Symbol.epsilon ∧ net.Ends (n, [])) ∧
      (net.NoLeftRecursion → ∀ x, net.Meets (n, []) x ∨ x = Symbol.epsilon ∧ net.Ends (n, []) → s.Contains x) := by
  obtain ⟨s, hgo, hfound⟩ := Lookahead.explore_exact hf hfits .alone (γ := []) (k := 0) hn (by simp) (Nat.le_refl 0)
  have hgo' : Lookahead.explore net none (Lookahead.bound net 0) n .null [] {} = .ok ⟨⟩ s := hgo
  refine ⟨s.look, ?_, hfound⟩
  simp only [look, bind, Except.bind, pure, Except.pure, Option.getD_none, List.length_nil, hgo']

theorem look_called (hf : net.Formed) (hfits : net.Fits) {n : Nat} (hn : n < net.states.size) {cs : List Int}
    {γ : List Nat} (hcs : Returns net cs γ) : ∃ s, net.look n none (some cs) = .ok s ∧
      (∀ x, s.Contains x → net.Meets (n, γ) x ∨ x = Symbol.eof ∧ net.Ends (n, γ)) ∧
      (net.NoLeftRecursion → ∀ x, net.Meets (n, γ) x ∨ x = Symbol.eof ∧ net.Ends (n, γ) → s.Contains x) := by
  obtain ⟨hγ, hlen, -⟩ := hcs.lt_size
  obtain ⟨s, hgo, -, hfound⟩ := Lookahead.explore_exact hf hfits .called hn hγ hlen
  refine ⟨s.look, ?_, hfound⟩
  simp only [look, bind, Except.bind, hcs.ofInvocations hf.small, Option.getD_some, hgo]

theorem look_alone_iff (hf : net.Formed) (hfits : net.Fits) (hrec : net.NoLeftRecursion) {n : Nat}
    (hn : n < net.states.size) :
    ∃ s, net.look n none none = .ok s ∧ (∀ x, x ≠ Symbol.epsilon → (s.Contains x ↔ net.Meets (n, []) x)) ∧
      (s.Contains Symbol.epsilon ↔ net.Ends (n, [])) := by
  obtain ⟨s, hs, -, hsound, hcomplete⟩ := look_alone hf hfits hn
  refine ⟨s, hs, fun x hx => ⟨fun h => ?_, fun h => hcomplete hrec x (.inl h)⟩, fun h => ?_,
    fun h => hcomplete hrec _ (.inr ⟨rfl, h⟩)⟩
  · exact (hsound x h).resolve_right fun h => hx h.1
  · exact ((hsound _ h).resolve_left fun h => absurd (hf.eof_le h) (by decide)).2

/-- For every network of a grammar whose complements fit and where no rule calls itself before something
is read, every state and every stack of callers: the lookahead within the rule has a symbol exactly if
it can be read first, and the mark exactly if the end of the rule can be reached before anything is
read; the lookahead under callers has a symbol exactly if it can be read first, there or behind the
calls, and the end of the input also if the outermost rule can be left. -/
theorem look_exact (hf : net.Formed) (hfits : net.Fits) (hrec : net.NoLeftRecursion) {n : Nat}
    (hn : n < net.states.size) :
    (∃ s, net.look n none none = .ok s ∧ (∀ x, x ≠ Symbol.epsilon → (s.Contains x ↔ net.Meets (n, []) x)) ∧
      (s.Contains Symbol.epsilon ↔ net.Ends (n, []))) ∧
    ∀ cs γ, Returns net cs γ → ∃ s, net.look n none (some cs) = .ok s ∧
      ∀ x, s.Contains x ↔ net.Meets (n, γ) x ∨ x = Symbol.eof ∧ net.Ends (n, γ) := by
  refine ⟨look_alone_iff hf hfits hrec hn, fun cs γ hcs => ?_⟩
  obtain ⟨s, hs, hsound, hcomplete⟩ := look_called hf hfits hn hcs
  exact ⟨s, hs, fun x => ⟨hsound x, hcomplete hrec x⟩⟩

/-- A grammar with two rules: the first calls the second and reads anything but two, the second reads
two or nothing. -/
def pairOfRules : Network where
  maxSymbol := 3
  starts := #[0, 4]
  states := #[
    { kind := .ruleStart, rule := 0, edges := #[⟨2, .epsilon (-1)⟩] },
    { kind := .ruleStop, rule := 0 },
    { kind := .basic, rule := 0, edges := #[⟨4, .call 1 0 3⟩] },
    { kind := .basic, rule := 0, edges := #[⟨1, .notSet (.single 2)⟩] },
    { kind := .ruleStart, rule := 1, edges := #[⟨5, .epsilon (-1)⟩, ⟨6, .epsilon (-1)⟩] },
    { kind := .ruleStop, rule := 1, edges := #[⟨3, .epsilon (-1)⟩] },
    { kind := .basic, rule := 1, edges := #[⟨5, .atom 2⟩] }]

theorem pairOfRules_edges {P : Nat → Edge → Prop} (h0 : P 0 ⟨2, .epsilon (-1)⟩) (h2 : P 2 ⟨4, .call 1 0 3⟩)
    (h3 : P 3 ⟨1, .notSet (.single 2)⟩) (h4 : P 4 ⟨5, .epsilon (-1)⟩) (h4' : P 4 ⟨6, .epsilon (-1)⟩)
    (h6 : P 6 ⟨5, .atom 2⟩) : ∀ n, (pairOfRules.state n).isRuleStop = false → ∀ e ∈ pairOfRules.edges n, P n e := by
  intro n hstop e he
  obtain _ | _ | _ | _ | _ | _ | _ | n := n <;>
    simp [edges, state, pairOfRules, NetState.isRuleStop] at he hstop
  · exact he ▸ h0
  · exact he ▸ h2
  · exact he ▸ h3
  · rcases he with rfl | rfl
    · exact h4
    · exact h4'
  · exact he ▸ h6
  · exact absurd he (Array.not_mem_empty e)

theorem pairOfRules_formed : pairOfRules.Formed := by
  refine ⟨by decide, ?_, ?_, ?_, ?_⟩
  · exact pairOfRules_edges (by decide) (by decide) (by decide) (by decide) (by decide) (by decide)
  · exact pairOfRules_edges (by decide) (by decide) (by decide) (by decide) (by decide) (by decide)
  · refine pairOfRules_edges ?_ ?_ ?_ ?_ ?_ ?_ <;> rintro ret ⟨⟩
    exact ⟨by decide, by decide, 1, rfl, rfl⟩
  · refine pairOfRules_edges trivial trivial ⟨.insert .empty (by decide), by decide, by decide⟩ trivial trivial ?_
    change Symbol.eof ≤ 2
    decide

theorem pairOfRules_fits : pairOfRules.Fits := by
  refine pairOfRules_edges trivial trivial ?_ trivial trivial trivial
  unfold Label.Fits SymbolSet.Fits
  decide

theorem pairOfRules_noLeftRecursion : pairOfRules.NoLeftRecursion := by
  intro k n γ hglides hstop e he ret hcall htarget
  have hcalls : ∀ n, (pairOfRules.state n).isRuleStop = false → ∀ e ∈ pairOfRules.edges n,
      e.label.follow? ≠ none → n = 2 ∧ e.target = 4 :=
    pairOfRules_edges (by decide) (by decide) (by decide) (by decide) (by decide) (by decide)
  have hsecond : ∀ n, (pairOfRules.state n).isRuleStop = false → ∀ e ∈ pairOfRules.edges n,
      4 ≤ n → 4 ≤ e.target ∧ e.label.follow? = none :=
    pairOfRules_edges (by decide) (by decide) (by decide) (by decide) (by decide) (by decide)
  obtain ⟨rfl, hk⟩ := hcalls n hstop e he (by simp [hcall])
  rw [← htarget, hk] at hglides
  -- the second rule makes no call
  have hstay : ∀ d, pairOfRules.Glides (4, []) d → 4 ≤ d.1 ∧ d.2 = [] := by
    intro d hd
    induction hd with
    | refl => exact ⟨Nat.le_refl 4, rfl⟩
    | tail _ hmove ih =>
      cases hmove with
      | slip hstop he => exact ⟨(hsecond _ hstop _ he ih.1).1, ih.2⟩
      | call hstop he hcall => cases hcall.symm.trans (hsecond _ hstop _ he ih.1).2
      | back => cases ih.2
  have := (hstay _ hglides).1
  omega

/-- The second rule of the pair, called by the first. -/
theorem look_exact_pairOfRules : ∃ s, pairOfRules.look 4 none (some [2, -1]) = .ok s ∧
    ∀ x, s.Contains x ↔ pairOfRules.Meets (4, [3]) x ∨ x = Symbol.eof ∧ pairOfRules.Ends (4, [3]) := by
  have hcs : Returns pairOfRules [2, -1] [3] :=
    .call (n := 2) (by decide) (by decide) rfl (.outermost (-1))
  exact (look_exact pairOfRules_formed pairOfRules_fits pairOfRules_noLeftRecursion (by decide)).2 _ _ hcs

end Network

end Throbac
