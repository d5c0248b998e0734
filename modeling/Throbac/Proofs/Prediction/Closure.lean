import Throbac.Proofs.Prediction.Search

/-!
# Searches come to an end

How far a search can go from a configuration: inside a rule its steps lead to lower ranks, and it falls
out of a rule only as often as a configuration can be met. So the steps it takes from any configuration
are bounded.
-/
namespace Throbac

open StackContext (Proper Known)

namespace StackContext

def ofStack : List Nat → StackContext
  | [] => .empty
  | r :: γ => .single (ofStack γ) r

variable {size : Nat} {wild : Bool} {γ : List Nat} {c : StackContext}

theorem Proper.lt_of_has (h : Proper size wild c) (hγ : c.Has γ) : ∀ r ∈ γ, r < size := by
  induction γ generalizing c with
  | nil => simp
  | cons r γ ih =>
    obtain ⟨hr, p, hp, hγ⟩ := hγ
    intro n hn
    rcases List.mem_cons.1 hn with rfl | hn
    · have := h.range _ hp hr
      dsimp only at this
      omega
    · exact ih (h.grown _ hp hr) hγ n hn

theorem isStack_ofStack (h : ∀ r ∈ γ, r < size) : (ofStack γ).IsStack size := by
  induction γ with
  | nil => trivial
  | cons r γ ih =>
    have hr := h r List.mem_cons_self
    exact ⟨by omega, by omega, ih fun n hn => h n (List.mem_cons_of_mem _ hn)⟩

theorem height_ofStack (γ : List Nat) : (ofStack γ).height = γ.length := by
  induction γ with
  | nil => rfl
  | cons r γ ih => rw [ofStack, height, ih, List.length_cons]

theorem height_le_heights {p : StackContext} {ps : List StackContext} (h : p ∈ ps) :
    p.height ≤ heights ps := by
  induction ps with
  | nil => exact absurd h List.not_mem_nil
  | cons q ps ih =>
    rw [heights]
    rcases List.mem_cons.1 h with rfl | h
    · exact Nat.le_max_left _ _
    · exact Nat.le_trans (ih h) (Nat.le_max_right _ _)

theorem height_lt_of_frame {p : StackContext} {r : Int} (h : (p, r) ∈ c.frames) (hr : r ≠ bottom) :
    p.height < c.height := by
  cases c with
  | null => exact absurd h List.not_mem_nil
  | empty =>
    rw [frames, List.mem_singleton] at h
    exact absurd (congrArg Prod.snd h) hr
  | single q s =>
    rw [frames, List.mem_singleton] at h
    obtain ⟨rfl, -⟩ := Prod.mk.inj h
    exact Nat.lt_succ_self _
  | array ps rs =>
    rw [height]
    exact Nat.lt_succ_of_le (height_le_heights (List.of_mem_zip h).1)

theorem Has.length_le (h : c.Has γ) : γ.length ≤ c.height := by
  induction γ generalizing c with
  | nil => exact Nat.zero_le _
  | cons r γ ih =>
    obtain ⟨hr, p, hp, hγ⟩ := h
    exact Nat.lt_of_le_of_lt (ih hγ) (height_lt_of_frame hp hr)

end StackContext

namespace Prediction

/-- How far a search can go from a state with a stack. -/
def reach (rank : Nat → Nat) (ends : Nat → Bool) (n : Nat) (γ : List Nat) : Nat :=
  Network.reachDepth rank ends n (.ofStack γ)

/-- What a search asks of its surroundings so as not to fail. -/
structure Setting (env : Surroundings) (rank : Nat → Nat) (ends : Nat → Bool) (k : Nat) : Prop where
  charted : Charted env.network rank ends
  bounded : ∀ n, rank n ≤ k
  traced : env.traced = false
  decided : ∀ g : Guard, ∃ b, g.eval env.oracle = .ok b

/-- Configurations that are stored when they are taken up. -/
def Waits (env : Surroundings) (c : Config) : Prop :=
  if (env.network.state c.state).isRuleStop = true ∧ env.full = true then c.context = .empty
  else (env.network.state c.state).epsilonOnly = false ∧
    ((env.network.state c.state).isRuleStop = true → c.context = .empty)

/-- A property of stages that steps keep, and what it says of configurations that are stored. -/
structure Kept (env : Surroundings) (Ψ : Stage → Prop) (Φ : Config → Prop) : Prop where
  step : ∀ x y, Step env x y → Ψ x → Ψ y
  config : ∀ x, Ψ x → Waits env x.config → Φ x.config
  mergeable : Mergeable env.network.states.size (!env.full) Φ

theorem Kept.and {env : Surroundings} {Ψ Ψ' : Stage → Prop} {Φ Φ' : Config → Prop} (h : Kept env Ψ Φ)
    (h' : Kept env Ψ' Φ') : Kept env (fun x => Ψ x ∧ Ψ' x) fun c => Φ c ∧ Φ' c where
  step := fun x y hstep hx => ⟨h.step x y hstep hx.1, h'.step x y hstep hx.2⟩
  config := fun x hx hwaits => ⟨h.config x hx.1 hwaits, h'.config x hx.2 hwaits⟩
  mergeable := fun e c m hshare he hc hm =>
    ⟨h.mergeable e c m hshare he.1 hc.1 hm, h'.mergeable e c m hshare he.2 hc.2 hm⟩

/-- A stage with the property that a search can take up. -/
structure Fit (env : Surroundings) (Ψ : Stage → Prop) (x : Stage) : Prop where
  has : Ψ x
  proper : Proper env.network.states.size (!env.full) x.config.context
  deep : ∀ γ, x.config.context.Has γ → x.depth ≤ γ.length

/-- The steps a search can take after falls out of a rule. -/
def slack (env : Surroundings) (k : Nat) (s : Search) (x : Stage) : Nat :=
  if env.full then 0
  else (2 * k + 4) * (if x.depth < 0 then fallsLeft env.network.states.size s x.config
    else 4 * env.network.states.size + 1)

def Lasts (env : Surroundings) (rank : Nat → Nat) (ends : Nat → Bool) (k spare fuel : Nat) (s : Search)
    (x : Stage) : Prop :=
  ∀ γ, x.config.context.Has γ → 2 * reach rank ends x.config.state γ + slack env k s x + spare ≤ fuel

variable {env : Surroundings} {rank : Nat → Nat} {ends : Nat → Bool} {k fuel : Nat} {Ψ : Stage → Prop}
  {Φ : Config → Prop} {s s' s'' : Search} {x y : Stage}

/-! ## The rounds of a search -/

/-- Follows an edge of a configuration that is taken up. -/
def passEdge (env : Surroundings) (fuel : Nat) (x : Stage) (e : Edge) : SearchM (ForInStep PUnit) := do
  let collecting := x.collecting && !isAction e.label
  match ← follow env x.config e collecting (x.depth = 0) with
  | none => return .yield ⟨⟩
  | some next =>
    if (env.network.state x.config.state).isRuleStop then
      let next ← MonadExcept.ofExcept (leaveRule env next e)
      if (← get).visited next then return .yield ⟨⟩
      let v ← visit next
      modify fun s => { s with set := { s.set with dipsOutside := true } }
      tell env fun _ => "dips into outer ctx: " ++ next.display
      settle env fuel next (some v) collecting (x.depth - 1)
      return .yield ⟨⟩
    else
      let depth := if isCall e.label ∧ x.depth ≥ 0 then x.depth + 1 else x.depth
      if e.isEpsilon then
        settle env fuel next none collecting depth
        return .yield ⟨⟩
      else if (← get).visited next then return .yield ⟨⟩
      else
        let v ← visit next
        settle env fuel next (some v) collecting depth
        return .yield ⟨⟩

/-- What becomes of one edge of a configuration that is taken up. -/
def edgeRound (env : Surroundings) (fuel : Nat) (x : Stage) (e : Edge) (i : Nat) :
    SearchM (ForInStep PUnit) := do
  if i = 0 then
    if ← MonadExcept.ofExcept (canSkipEntry env.network x.config) then return .yield ⟨⟩
  passEdge env fuel x e

theorem expand_silent (h : (env.network.state x.config.state).epsilonOnly = true) (visit : Option Nat) :
    expand env (fuel + 1) x.config visit x.collecting x.depth s =
      (do
        forIn (env.network.edges x.config.state).toList.zipIdx PUnit.unit
          fun (e, i) _ => edgeRound env fuel x e i
        pure () : SearchM Unit) s := by
  rw [expand, if_pos h]
  rfl

theorem expand_waits (h : (env.network.state x.config.state).epsilonOnly = false)
    (hsize : (env.network.edges x.config.state).size ≤ 1) {visit place : Option Nat}
    (hstore : store x.config visit s = .ok place s') (hpresent : s'.present x.config place = x.config) :
    expand env (fuel + 1) x.config visit x.collecting x.depth s =
      (do
        forIn (env.network.edges x.config.state).toList.zipIdx PUnit.unit
          fun (e, i) _ => edgeRound env fuel x e i
        pure () : SearchM Unit) s' := by
  rw [expand, if_neg (by simp [h]), Run.bind_ok hstore]
  unfold Network.edges at hsize ⊢
  generalize (env.network.state x.config.state).edges = edges at hsize ⊢
  rcases edges with ⟨_ | ⟨e, _ | ⟨e', es⟩⟩⟩
  · rfl
  · simp only [List.zipIdx_cons, List.zipIdx_nil, List.forIn_cons, List.forIn_nil]
    refine Run.bind_congr (Run.bind_congr ?_)
    rw [Run.get_bind, hpresent]
    rfl
  · simp at hsize

/-- The search takes up any stage that the fuel lasts for. -/
def SettleOk (env : Surroundings) (rank : Nat → Nat) (ends : Nat → Bool) (k : Nat) (Ψ : Stage → Prop)
    (Φ : Config → Prop) (fuel : Nat) : Prop :=
  ∀ (x : Stage) (visit : Option Nat) (s : Search), Fit env Ψ x →
    Sound env.network.states.size env.full Φ s → Visiting s x.config visit →
    Lasts env rank ends k 2 fuel s x →
    ∃ s', settle env fuel x.config visit x.collecting x.depth s = .ok ⟨⟩ s' ∧
      Sound env.network.states.size env.full Φ s' ∧ Onward s s'

theorem Lasts.step (h : Lasts env rank ends k 1 (fuel + 1) s x)
    (hslack : slack env k s y ≤ slack env k s x)
    (hreach : ∀ γ, y.config.context.Has γ → ∃ δ, x.config.context.Has δ ∧
      reach rank ends y.config.state γ < reach rank ends x.config.state δ) :
    Lasts env rank ends k 2 fuel s y := by
  intro γ hγ
  obtain ⟨δ, hδ, hlt⟩ := hreach γ hγ
  have := h δ hδ
  omega

theorem slack_mono (h : Onward s s') (x : Stage) : slack env k s' x ≤ slack env k s x := by
  unfold slack
  split
  · exact Nat.le_refl _
  · refine Nat.mul_le_mul_left _ ?_
    split
    · exact fallsLeft_mono h _
    · exact Nat.le_refl _

theorem Lasts.mono {spare : Nat} (h : Lasts env rank ends k spare fuel s x) (ho : Onward s s') :
    Lasts env rank ends k spare fuel s' x := by
  intro γ hγ
  have := h γ hγ
  have : slack env k s' x ≤ slack env k s x := slack_mono ho x
  omega

theorem slack_eq (hdepth : y.depth < 0 ↔ x.depth < 0) (halt : y.config.alt = x.config.alt)
    (hguard : x.depth < 0 → y.config.guard = x.config.guard) : slack env k s y = slack env k s x := by
  unfold slack
  by_cases hx : x.depth < 0
  · rw [if_pos hx, if_pos (hdepth.2 hx), fallsLeft_congr _ _ halt (hguard hx)]
  · rw [if_neg hx, if_neg (mt hdepth.1 hx)]

/-! ## Steps along edges -/

theorem Fit.along (hset : Setting env rank ends k) (hkept : Kept env Ψ Φ) (hx : Fit env Ψ x) {e : Edge}
    (he : e ∈ env.network.edges x.config.state) (h : Along env e x y) : Fit env Ψ y := by
  have hhas := hkept.step x y (.along he h) hx.has
  have hproper := hx.proper
  have hdeep := hx.deep
  cases h with
  | slip hstop hsilent hcall hguard => exact ⟨hhas, hproper, hdeep⟩
  | @call c collecting depth ret hstop hcall =>
    have hret := (hset.charted.call _ hstop e he ret hcall).1
    have hpush : c.context.push ret = .single c.context ret := hproper.push_eq ret
    refine ⟨hhas, ?_, ?_⟩
    · change Proper _ _ (c.context.push ret)
      rw [hpush]
      exact .single ⟨by omega, by omega⟩ hproper
    · intro γ hγ
      have hsmall := hset.charted.small
      have hb : (ret : Int) ≠ StackContext.bottom := by omega
      change (c.context.push ret).Has γ at hγ
      rw [hpush, StackContext.has_single hb] at hγ
      obtain ⟨δ, rfl, hδ⟩ := hγ
      have := hdeep δ hδ
      dsimp only at this ⊢
      rw [List.length_cons]
      split <;> omega
  | eof hstop hthrough hread => exact ⟨hhas, hproper, hdeep⟩
  | fall hstop hfull hempty hlabel =>
    refine ⟨hhas, hproper, fun γ hγ => ?_⟩
    have := hdeep γ hγ
    dsimp only at this ⊢
    omega

theorem Along.reach_lt (hset : Setting env rank ends k) (hx : Fit env Ψ x)
    (hstop : (env.network.state x.config.state).isRuleStop = false) {e : Edge}
    (he : e ∈ env.network.edges x.config.state) (h : Along env e x y) :
    ∀ γ, y.config.context.Has γ → ∃ δ, x.config.context.Has δ ∧
      reach rank ends y.config.state γ < reach rank ends x.config.state δ := by
  intro γ hγ
  have hproper := hx.proper
  cases h with
  | slip hstop hsilent hcall hguard => exact ⟨γ, hγ, hset.charted.depth_slip hstop he hsilent hcall⟩
  | @call c collecting depth ret hstop hcall =>
    have hret := (hset.charted.call _ hstop e he ret hcall).1
    have hsmall := hset.charted.small
    have hpush : c.context.push ret = .single c.context ret := hproper.push_eq ret
    change (c.context.push ret).Has γ at hγ
    rw [hpush, StackContext.has_single (by omega)] at hγ
    obtain ⟨δ, rfl, hδ⟩ := hγ
    refine ⟨δ, hδ, ?_⟩
    have hstack := StackContext.isStack_ofStack (hproper.lt_of_has hδ)
    have hpushed : (StackContext.ofStack δ).push ret = .ofStack (ret :: δ) := by
      cases δ <;> rfl
    have := hset.charted.depth_call hstop he hcall hstack
    rwa [hpushed] at this
  | eof hstop hthrough hread =>
    obtain ⟨hrank, hends⟩ := hset.charted.eof _ hstop e he hread
    refine ⟨γ, hγ, ?_⟩
    unfold reach Network.reachDepth
    dsimp only at hrank hends ⊢
    split
    · next ht =>
      rw [if_pos (hends ht)]
      omega
    · omega
  | fall hstop' => cases hstop.symm.trans hstop'

/-- Inside a rule a step along an edge changes neither the alternative nor, away from the rule where
the search began, the guard. -/
theorem Along.slack_eq (hset : Setting env rank ends k)
    (hstop : (env.network.state x.config.state).isRuleStop = false) {e : Edge}
    (he : e ∈ env.network.edges x.config.state) (h : Along env e x y) :
    slack env k s y = slack env k s x := by
  cases h with
  | @slip c collecting depth g hstop hsilent hcall hguard =>
    refine Prediction.slack_eq Iff.rfl rfl fun hdepth => ?_
    dsimp only at hdepth ⊢
    have hcond := hset.charted.unconditional _ e he
    obtain ⟨target, label⟩ := e
    have hinRule : decide (depth = 0) = false := by
      rw [decide_eq_false_iff_not]
      omega
    cases label with
    | precedence p =>
      simp only [guardBehind, guardBehind.behind, hinRule, Bool.and_false, Bool.not_false, if_true] at hguard
      exact (Option.some.inj hguard).symm
    | predicate r p needsContext => exact absurd rfl (hcond r p needsContext)
    | _ => exact (Option.some.inj hguard).symm
  | call hstop hcall =>
    refine Prediction.slack_eq ?_ rfl fun _ => rfl
    dsimp only
    split <;> omega
  | eof hstop hthrough hread => exact Prediction.slack_eq Iff.rfl rfl fun _ => rfl
  | fall hstop' => cases hstop.symm.trans hstop'

theorem passEdge_silent (fuel : Nat) (s : Search) (hset : Setting env rank ends k)
    (hstop : (env.network.state x.config.state).isRuleStop = false) {e : Edge}
    (hsilent : e.isEpsilon = true) :
    (∃ y, Along env e x y ∧ passEdge env fuel x e s =
      (do settle env fuel y.config none y.collecting y.depth; return .yield ⟨⟩ : SearchM _) s) ∨
    passEdge env fuel x e s = .ok (.yield ⟨⟩) s := by
  obtain ⟨c, collecting, depth⟩ := x
  dsimp only at hstop
  cases hcall : e.label.follow? with
  | some ret =>
    refine .inl ⟨_, .call hstop hcall, ?_⟩
    have hlabel : isCall e.label = true ∧ isAction e.label = false := by
      cases hl : e.label <;> simp_all [Label.follow?, isCall, isAction]
    rw [passEdge, Run.bind_ok (follow_call hset.traced hcall)]
    dsimp only
    rw [if_neg (by simp [hstop]), if_pos hsilent, hlabel.1, hlabel.2, Bool.not_false, Bool.and_true]
    simp only [true_and]
  | none =>
    have hlabel : isCall e.label = false := by
      cases hl : e.label <;> simp_all [Label.follow?, isCall]
    rw [passEdge, Run.bind_ok (follow_slip hset.traced hset.decided hsilent hcall)]
    cases hguard : guardBehind env c e (collecting && !isAction e.label) (depth = 0) with
    | none => exact .inr rfl
    | some g =>
      refine .inl ⟨_, .slip hstop hsilent hcall hguard, ?_⟩
      dsimp only [Option.map_some]
      rw [if_neg (by simp [hstop]), if_pos hsilent, hlabel]
      simp only [Bool.false_eq_true, false_and, if_false]

/-- An edge inside a rule that reads a symbol: the search goes on behind it at the end of the input,
unless it was there before. -/
theorem passEdge_reads (fuel : Nat) (s : Search)
    (hstop : (env.network.state x.config.state).isRuleStop = false) {e : Edge} (hsilent : e.isEpsilon = false) :
    (∃ y, Along env e x y ∧ passEdge env fuel x e s = if s.visited y.config = true then .ok (.yield ⟨⟩) s else
      (do
        let v ← visit y.config
        settle env fuel y.config (some v) y.collecting y.depth
        return .yield ⟨⟩ : SearchM _) s) ∨
    passEdge env fuel x e s = .ok (.yield ⟨⟩) s := by
  obtain ⟨c, collecting, depth⟩ := x
  dsimp only at hstop
  have hlabel : isCall e.label = false ∧ isAction e.label = false := by
    cases hl : e.label <;> simp_all [Edge.isEpsilon, Label.isEpsilon, isCall, isAction]
  rw [passEdge, Run.bind_ok (follow_reads hsilent)]
  by_cases hread : env.throughEof = true ∧ e.label.reads Symbol.eof 0 1 = true
  · refine .inl ⟨_, .eof hstop hread.1 hread.2, ?_⟩
    rw [if_pos hread]
    dsimp only
    rw [if_neg (by simp [hstop]), if_neg (by simp [hsilent]), Run.get_bind, hlabel.1, hlabel.2]
    simp only [Bool.false_eq_true, false_and, if_false, Bool.not_false, Bool.and_true]
    split <;> rfl
  · exact .inr (by rw [if_neg hread]; rfl)

theorem passEdge_falls (fuel : Nat) (s : Search) (hset : Setting env rank ends k)
    (hstop : (env.network.state x.config.state).isRuleStop = true) (hfull : env.full = false)
    (hempty : x.config.context = .empty) {e : Edge} (he : e ∈ env.network.edges x.config.state) :
    ∃ y, Along env e x y ∧ passEdge env fuel x e s = if s.visited y.config = true then .ok (.yield ⟨⟩) s else
      (do
        let v ← visit y.config
        modify fun s => { s with set := { s.set with dipsOutside := true } }
        settle env fuel y.config (some v) y.collecting y.depth
        return .yield ⟨⟩ : SearchM _) s := by
  obtain ⟨c, collecting, depth⟩ := x
  dsimp only at hstop hempty he
  obtain ⟨outermost, hlabel⟩ := hset.charted.falls _ hstop e he
  have hfollow : follow env c e (collecting && !isAction e.label) (depth = 0) s =
      .ok (some { c with state := e.target }) s := by
    rw [follow_slip hset.traced hset.decided (by rw [Edge.isEpsilon, hlabel]; rfl) (by rw [hlabel]; rfl),
      guardBehind, hlabel]
    rfl
  refine ⟨_, .fall hstop hfull hempty hlabel, ?_⟩
  rw [passEdge, Run.bind_ok hfollow]
  dsimp only
  rw [if_pos hstop, leaveRule_eq hlabel, Run.ofExcept_ok_bind, Run.get_bind, hlabel]
  dsimp only [isAction]
  rw [Bool.not_false, Bool.and_true]
  split
  · rfl
  · change (tell env _ >>= _) _ = _
    rw [Run.bind_ok (tell_off hset.traced _)]
    rfl

/-! ## One round -/

theorem settle_met (hsettle : SettleOk env rank ends k Ψ Φ fuel) (hy : Fit env Ψ y)
    (hs : Sound env.network.states.size env.full Φ s) {v : Nat}
    (hv : s.visits[v]? = some { config := y.config }) (hfuel : Lasts env rank ends k 2 fuel s y) :
    ∃ s', settle env fuel y.config (some v) y.collecting y.depth s = .ok ⟨⟩ s' ∧
      Sound env.network.states.size env.full Φ s' ∧ Onward s s' := by
  refine hsettle y (some v) s hy hs (fun w hw => ?_) hfuel
  obtain rfl := Option.some.inj hw
  exact ⟨_, hv, rfl, rfl⟩

theorem lasts_fall (hset : Setting env rank ends k) (hx : Fit env Ψ x)
    (hstop : (env.network.state x.config.state).isRuleStop = true) {e : Edge}
    (he : e ∈ env.network.edges x.config.state) (h : Along env e x y)
    (hs : Sound env.network.states.size env.full Φ s) (hnew : ¬ s.visited y.config = true)
    (hmet : met s' = met s ++ [y.config])
    (hfuel : Lasts env rank ends k 1 (fuel + 1) s x) : Lasts env rank ends k 2 fuel s' y := by
  have htarget := hset.charted.targets _ e he
  have hfew : timesMet s y.config < 2 := by
    by_contra htwice
    exact hnew (hs.visited (by omega))
  have hmore : timesMet s y.config < timesMet s' y.config := by
    have hsame : y.config.same y.config = true := same_iff.2 ⟨rfl, rfl, rfl, rfl, rfl⟩
    rw [timesMet, timesMet, hmet, List.countP_append]
    simp [hsame]
  have hdeep := hx.deep
  cases h with
  | slip hstop' => cases hstop.symm.trans hstop'
  | call hstop' => cases hstop.symm.trans hstop'
  | eof hstop' => cases hstop.symm.trans hstop'
  | @fall c collecting depth outermost hstop hfull hempty hlabel =>
    intro γ hγ
    dsimp only at hempty hdeep htarget hγ hfew hmore
    rw [hempty] at hγ hdeep
    have hdepth := hdeep [] (StackContext.has_empty.2 rfl)
    obtain rfl := StackContext.has_empty.1 hγ
    have hlast := hfuel [] (by dsimp only; rw [hempty]; exact StackContext.has_empty.2 rfl)
    have hreach : reach rank ends e.target [] ≤ k := by
      have hrank := hset.bounded e.target
      unfold reach Network.reachDepth
      simp only [StackContext.ofStack, StackContext.load, ite_self]
      exact hrank
    have hlt : fallsLeft env.network.states.size s' c <
        if depth < 0 then fallsLeft env.network.states.size s c else 4 * env.network.states.size + 1 := by
      have hlt := fallsLeft_lt (c := c) (d := { c with
        state := e.target, outer := c.outer + 1, spared := sparedBehind env c.spared outermost })
        ⟨_, hmet⟩ htarget hempty rfl rfl hfew hmore
      have hle := fallsLeft_le env.network.states.size s c
      split <;> omega
    have hmul := Nat.mul_le_mul_left (2 * k + 4) (Nat.succ_le_of_lt hlt)
    have hsame := fallsLeft_congr env.network.states.size s' (c := c) (d := { c with
      state := e.target, outer := c.outer + 1, spared := sparedBehind env c.spared outermost }) rfl rfl
    simp only [List.length_nil, Nat.cast_zero] at hdepth
    unfold slack at hlast ⊢
    simp only [hfull, Bool.false_eq_true, if_false] at hlast ⊢
    rw [if_pos (by omega), hsame]
    rw [Nat.mul_succ] at hmul
    omega

end Prediction

end Throbac
