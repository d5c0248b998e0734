import Throbac.Proofs.Prediction.Closure

/-!
# Exploring from a configuration

The steps of a search put together: the closure of a configuration and the start of a choice end within
their bound, which is computed from the network and the height of the stacks, and leave the set in good
order.
-/
namespace Throbac

open StackContext (Proper Known)

namespace Prediction

variable {env : Surroundings} {rank : Nat → Nat} {ends : Nat → Bool} {k fuel : Nat} {Ψ : Stage → Prop}
  {Φ : Config → Prop} {s s' s'' : Search} {x y : Stage}

/-! ## One round -/

theorem Sound.dips (h : Sound env.network.states.size env.full Φ s) :
    Sound env.network.states.size env.full Φ { s with set := { s.set with dipsOutside := true } } :=
  ⟨⟨h.fine.fullContext, h.fine.readonly, h.fine.searchable, h.fine.proper, h.fine.all, h.fine.apart,
    h.fine.unsettled⟩, h.known, h.placed, h.once⟩

theorem passEdge_ok (hset : Setting env rank ends k) (hkept : Kept env Ψ Φ)
    (hsettle : SettleOk env rank ends k Ψ Φ fuel) (hx : Fit env Ψ x)
    (hout : (env.network.state x.config.state).isRuleStop = true →
      env.full = false ∧ x.config.context = .empty)
    {e : Edge} (he : e ∈ env.network.edges x.config.state)
    (hs : Sound env.network.states.size env.full Φ s)
    (hfuel : Lasts env rank ends k 1 (fuel + 1) s x) :
    ∃ s', passEdge env fuel x e s = .ok (.yield ⟨⟩) s' ∧
      Sound env.network.states.size env.full Φ s' ∧ Onward s s' := by
  cases hstop : (env.network.state x.config.state).isRuleStop with
  | true =>
    obtain ⟨hfull, hempty⟩ := hout hstop
    obtain ⟨y, hy, hrun⟩ := passEdge_falls fuel s hset hstop hfull hempty he
    by_cases hseen : s.visited y.config = true
    · rw [if_pos hseen] at hrun
      exact ⟨s, hrun, hs, .refl s⟩
    · rw [if_neg hseen] at hrun
      obtain ⟨s₁, hvisit, hs₁, hmet₁, hv₁⟩ := visit_ok hs y.config
      obtain ⟨s₂, hrun₂, hs₂, ho₂⟩ := settle_met hsettle (hx.along hset hkept he hy) hs₁.dips
        (v := s.visits.size) hv₁ (lasts_fall hset hx hstop he hy hs hseen hmet₁ hfuel)
      refine ⟨s₂, ?_, hs₂, .trans ⟨_, hmet₁⟩ ho₂⟩
      rw [hrun, Run.bind_ok hvisit, Run.modify_bind, Run.bind_ok hrun₂]
      rfl
  | false =>
    have hnext : ∀ {s' : Search} {y : Stage}, Onward s s' → Along env e x y →
        Lasts env rank ends k 2 fuel s' y := by
      intro s' y ho hy
      exact ((hfuel.mono ho).step (Nat.le_of_eq (hy.slack_eq hset hstop he)) (hy.reach_lt hset hx hstop he))
    cases hsilent : e.isEpsilon with
    | true =>
      rcases passEdge_silent fuel s hset hstop hsilent with ⟨y, hy, hrun⟩ | hrun
      · obtain ⟨s₁, hrun₁, hs₁, ho₁⟩ := hsettle y none s (hx.along hset hkept he hy) hs
          (fun v hv => by cases hv) (hnext (.refl s) hy)
        refine ⟨s₁, ?_, hs₁, ho₁⟩
        rw [hrun, Run.bind_ok hrun₁]
        rfl
      · exact ⟨s, hrun, hs, .refl s⟩
    | false =>
      rcases passEdge_reads fuel s hstop hsilent with ⟨y, hy, hrun⟩ | hrun
      · by_cases hseen : s.visited y.config = true
        · rw [if_pos hseen] at hrun
          exact ⟨s, hrun, hs, .refl s⟩
        · rw [if_neg hseen] at hrun
          obtain ⟨s₁, hvisit, hs₁, hmet₁, hv₁⟩ := visit_ok hs y.config
          obtain ⟨s₂, hrun₂, hs₂, ho₂⟩ := settle_met hsettle (hx.along hset hkept he hy) hs₁ hv₁
            (hnext ⟨_, hmet₁⟩ hy)
          refine ⟨s₂, ?_, hs₂, .trans ⟨_, hmet₁⟩ ho₂⟩
          rw [hrun, Run.bind_ok hvisit, Run.bind_ok hrun₂]
          rfl
      · exact ⟨s, hrun, hs, .refl s⟩

theorem edgeRound_ok (hset : Setting env rank ends k) (hkept : Kept env Ψ Φ)
    (hsettle : SettleOk env rank ends k Ψ Φ fuel) (hx : Fit env Ψ x)
    (hout : (env.network.state x.config.state).isRuleStop = true →
      env.full = false ∧ x.config.context = .empty)
    {e : Edge} {i : Nat} (he : (env.network.edges x.config.state)[i]? = some e)
    (hs : Sound env.network.states.size env.full Φ s)
    (hfuel : Lasts env rank ends k 1 (fuel + 1) s x) :
    ∃ s', edgeRound env fuel x e i s = .ok (.yield ⟨⟩) s' ∧
      Sound env.network.states.size env.full Φ s' ∧ Onward s s' := by
  have hpass := passEdge_ok hset hkept hsettle hx hout (Array.mem_of_getElem? he) hs hfuel
  rw [edgeRound]
  split
  · obtain ⟨b, hb⟩ := canSkipEntry_ok hset.charted hx.proper
    rw [hb, Run.ofExcept_ok_bind]
    cases b with
    | true => exact ⟨s, rfl, hs, .refl s⟩
    | false => exact hpass
  · exact hpass

theorem edges_ok (hset : Setting env rank ends k) (hkept : Kept env Ψ Φ)
    (hsettle : SettleOk env rank ends k Ψ Φ fuel) (hx : Fit env Ψ x)
    (hout : (env.network.state x.config.state).isRuleStop = true →
      env.full = false ∧ x.config.context = .empty)
    (hs : Sound env.network.states.size env.full Φ s)
    (hfuel : Lasts env rank ends k 1 (fuel + 1) s x) :
    ∃ s', (do
        forIn (env.network.edges x.config.state).toList.zipIdx PUnit.unit
          fun (e, i) _ => edgeRound env fuel x e i
        pure () : SearchM Unit) s = .ok ⟨⟩ s' ∧
      Sound env.network.states.size env.full Φ s' ∧ Onward s s' := by
  obtain ⟨_, s', hrun, hs', ho⟩ := Run.forIn_keeps
    (f := fun (p : Edge × Nat) (_ : PUnit) => edgeRound env fuel x p.1 p.2)
    (P := Sound env.network.states.size env.full Φ) (R := Onward)
    (l := (env.network.edges x.config.state).toList.zipIdx) Onward.refl (fun _ _ _ h h' => h.trans h') (a := s)
    (by
      intro p hp b s₁ hs₁ ho₁
      have he := List.mk_mem_zipIdx_iff_getElem?.1 hp
      rw [Array.getElem?_toList] at he
      exact ⟨⟨⟩, edgeRound_ok hset hkept hsettle hx hout he hs₁ (hfuel.mono ho₁)⟩) PUnit.unit hs
  exact ⟨s', Run.bind_ok hrun, hs', ho⟩

theorem expand_ok (hset : Setting env rank ends k) (hkept : Kept env Ψ Φ)
    (hsettle : SettleOk env rank ends k Ψ Φ fuel) (hx : Fit env Ψ x)
    (hout : (env.network.state x.config.state).isRuleStop = true →
      env.full = false ∧ x.config.context = .empty)
    (hs : Sound env.network.states.size env.full Φ s) {visit : Option Nat}
    (hvisit : Visiting s x.config visit) (hfuel : Lasts env rank ends k 1 (fuel + 1) s x) :
    ∃ s', expand env (fuel + 1) x.config visit x.collecting x.depth s = .ok ⟨⟩ s' ∧
      Sound env.network.states.size env.full Φ s' ∧ Onward s s' := by
  cases hsilent : (env.network.state x.config.state).epsilonOnly with
  | true =>
    rw [expand_silent hsilent visit]
    exact edges_ok hset hkept hsettle hx hout hs hfuel
  | false =>
    have hwaits : Waits env x.config := by
      rw [Waits, if_neg fun h => by cases h.2.symm.trans (hout h.1).1]
      exact ⟨hsilent, fun h => (hout h).2⟩
    obtain ⟨place, s₁, hstore, hs₁, ho₁, hplace⟩ :=
      store_ok hset.charted.small hkept.mergeable hs (hkept.config x hx.has hwaits) hx.proper hvisit
    have hpresent : s₁.present x.config place = x.config := by
      cases place with
      | none => rfl
      | some j =>
        have := hplace j rfl
        simp [Search.present, Array.getD_eq_getD_getElem?, this]
    obtain ⟨s₂, hrun, hs₂, ho₂⟩ := edges_ok hset hkept hsettle hx hout hs₁ (hfuel.mono ho₁)
    refine ⟨s₂, ?_, hs₂, ho₁.trans ho₂⟩
    exact (expand_waits hsilent (hset.charted.waits _ hsilent).1 hstore hpresent).trans hrun

/-! ## Taking up a stage -/

def Stage.behind (x : Stage) (p : StackContext) (r : Nat) : Stage :=
  ⟨{ x.config with state := r, context := p, spared := false }, x.collecting, x.depth - 1⟩

theorem Fit.back (hkept : Kept env Ψ Φ) (hx : Fit env Ψ x)
    (hstop : (env.network.state x.config.state).isRuleStop = true) {p : StackContext} {r : Nat}
    (hframe : (p, (r : Int)) ∈ x.config.context.frames) (hr : (r : Int) ≠ StackContext.bottom) :
    Fit env Ψ (x.behind p r) := by
  refine ⟨hkept.step x _ (.back hstop hframe hr) hx.has, hx.proper.grown _ hframe hr, fun γ hγ => ?_⟩
  have := hx.deep (r :: γ) ⟨hr, p, hframe, hγ⟩
  rw [List.length_cons] at this
  change x.depth - 1 ≤ γ.length
  omega

theorem Lasts.back (hset : Setting env rank ends k)
    (hstop : (env.network.state x.config.state).isRuleStop = true) {p : StackContext} {r : Nat}
    (hframe : (p, (r : Int)) ∈ x.config.context.frames) (hr : (r : Int) ≠ StackContext.bottom)
    (h : Lasts env rank ends k 2 (fuel + 1) s x) :
    Lasts env rank ends k 2 fuel s (x.behind p r) := by
  intro γ hγ
  have hlast := h (r :: γ) ⟨hr, p, hframe, hγ⟩
  have hreach : reach rank ends (x.behind p r).config.state γ < reach rank ends x.config.state (r :: γ) := by
    have := hset.charted.depth_return hstop (p := .ofStack γ) (r := r)
    rwa [Int.toNat_natCast] at this
  have hslack : slack env k s (x.behind p r) ≤ slack env k s x := by
    unfold slack
    split
    · exact Nat.le_refl _
    · refine Nat.mul_le_mul_left _ ?_
      have hsame := fallsLeft_congr env.network.states.size s (c := x.config)
        (d := (x.behind p r).config) rfl rfl
      have hle := fallsLeft_le env.network.states.size s x.config
      have hdepth : (x.behind p r).depth = x.depth - 1 := rfl
      rw [hsame, hdepth]
      split <;> split <;> omega
  omega

def Stage.grounded (x : Stage) : Stage := ⟨{ x.config with context := .empty }, x.collecting, x.depth⟩

/-- What becomes of one frame on the stacks of a configuration at the end of a rule. -/
def frameRound (env : Surroundings) (fuel : Nat) (x : Stage) (visit : Option Nat)
    (f : StackContext × Int) : SearchM (ForInStep PUnit) := do
  if f.2 = StackContext.bottom then
    if env.full then
      let _ ← store { x.config with context := .empty } none
      return .yield ⟨⟩
    else
      noteFall env x.config
      expand env fuel x.config visit x.collecting x.depth
      return .yield ⟨⟩
  else
    let n ← MonadExcept.ofExcept (env.network.stateAt f.2)
    settle env fuel { x.config with state := n, context := f.1, spared := false } none x.collecting
      (x.depth - 1)
    return .yield ⟨⟩

theorem frameRound_ok (hset : Setting env rank ends k) (hkept : Kept env Ψ Φ)
    (hsettle : SettleOk env rank ends k Ψ Φ fuel) (hx : Fit env Ψ x)
    (hstop : (env.network.state x.config.state).isRuleStop = true)
    (hempty : x.config.context ≠ .empty) {f : StackContext × Int} (hf : f ∈ x.config.context.frames)
    (hs : Sound env.network.states.size env.full Φ s) (visit : Option Nat)
    (hfuel : Lasts env rank ends k 2 (fuel + 1) s x) :
    ∃ s', frameRound env fuel x visit f s = .ok (.yield ⟨⟩) s' ∧
      Sound env.network.states.size env.full Φ s' ∧ Onward s s' := by
  have hsmall := hset.charted.small
  have hlined := hx.proper.lined hsmall fun _ => hempty
  rw [frameRound]
  by_cases hbottom : f.2 = StackContext.bottom
  · have hfull : env.full = true := by
      by_contra hfull
      exact hlined.closed (by simpa using hfull) f hf hbottom
    have hhas := hkept.step x x.grounded (.ground hstop hfull (p := f.1) (hbottom ▸ hf)) hx.has
    have hwaits : Waits env x.grounded.config := by
      rw [Waits, if_pos ⟨hstop, hfull⟩]
      rfl
    obtain ⟨place, s₁, hstore, hs₁, ho₁, -⟩ :=
      store_ok hsmall hkept.mergeable hs (c := x.grounded.config) (hkept.config _ hhas hwaits) .empty
        (show Visiting s x.grounded.config none from fun v hv => by cases hv)
    rw [if_pos hbottom, if_pos hfull]
    exact ⟨s₁, Run.bind_ok hstore, hs₁, ho₁⟩
  · have hrange := hx.proper.range f hf hbottom
    obtain ⟨r, hr⟩ : ∃ r : Nat, f.2 = r := ⟨f.2.toNat, by omega⟩
    obtain ⟨p, q⟩ := f
    dsimp only at hr hbottom hrange
    subst hr
    obtain ⟨s₁, hrun, hs₁, ho₁⟩ := hsettle (x.behind p r) none s (hx.back hkept hstop hf hbottom) hs
      (fun v hv => by cases hv) (.back hset hstop hf hbottom hfuel)
    have hstate : env.network.stateAt (r : Int) = .ok r :=
      (Lookahead.stateAt_eq hrange.1 (by omega)).trans (by rw [Int.toNat_natCast])
    rw [if_neg hbottom, hstate, Run.ofExcept_ok_bind]
    exact ⟨s₁, Run.bind_ok hrun, hs₁, ho₁⟩

theorem settle_ok (hset : Setting env rank ends k) (hkept : Kept env Ψ Φ) (fuel : Nat) :
    SettleOk env rank ends k Ψ Φ fuel := by
  induction fuel using Nat.strongRecOn with
  | ind fuel ih =>
  intro x visit s hx hs hvisit hfuel
  have hsmall := hset.charted.small
  obtain ⟨γ₀, hγ₀⟩ := hx.proper.exists_has hsmall
  have hfuel₀ := hfuel γ₀ hγ₀
  obtain ⟨fuel, rfl⟩ : ∃ n, fuel = n + 2 := ⟨fuel - 2, by omega⟩
  have hexpand : Lasts env rank ends k 1 (fuel + 1) s x := by
    intro γ hγ
    have := hfuel γ hγ
    omega
  rw [settle, Run.bind_ok (tell_off hset.traced _)]
  dsimp only
  cases hstop : (env.network.state x.config.state).isRuleStop with
  | false =>
    exact expand_ok hset hkept (ih fuel (by omega)) hx (fun h => by cases hstop.symm.trans h) hs hvisit hexpand
  | true =>
    rw [if_neg (by decide), hx.proper.isEmpty_eq hsmall, Run.ofExcept_ok_bind]
    by_cases hempty : x.config.context = .empty
    · rw [if_pos (by simpa using hempty)]
      cases hfull : env.full with
      | true =>
        rw [if_pos rfl]
        have hwaits : Waits env x.config := by
          rw [Waits, if_pos ⟨hstop, hfull⟩]
          exact hempty
        obtain ⟨place, s₁, hstore, hs₁, ho₁, -⟩ :=
          store_ok hsmall hkept.mergeable hs (hkept.config x hx.has hwaits) hx.proper hvisit
        exact ⟨s₁, Run.bind_ok hstore, hfull ▸ hs₁, ho₁⟩
      | false =>
        rw [if_neg (by decide), Run.bind_ok (noteFall_off hset.traced), ← hfull]
        exact expand_ok hset hkept (ih fuel (by omega)) hx (fun _ => ⟨hfull, hempty⟩) hs hvisit hexpand
    · rw [if_neg (by simpa using hempty)]
      obtain ⟨_, s', hrun, hs', ho⟩ := Run.forIn_keeps
        (f := fun (f : StackContext × Int) (_ : PUnit) => frameRound env (fuel + 1) x visit f)
        (P := Sound env.network.states.size env.full Φ) (R := Onward) (l := x.config.context.frames)
        Onward.refl (fun _ _ _ h h' => h.trans h') (a := s)
        (fun f hf _ s₁ hs₁ ho₁ => ⟨⟨⟩, frameRound_ok hset hkept (ih (fuel + 1) (by omega)) hx hstop hempty
          hf hs₁ visit (hfuel.mono ho₁)⟩) PUnit.unit hs
      exact ⟨s', Run.bind_ok (f := fun _ => pure ()) hrun, hs', ho⟩

/-! ## Closures and starts -/

/-- The bound on the steps of a search is enough for ranks up to `k`. -/
def Wide (net : Network) (k : Nat) : Prop :=
  (k + 2) * (4 * net.states.size + 2) ≤ Nat.pow (net.states.size + 1) (net.starts.size + 1)

theorem lasts_bound (hset : Setting env rank ends k) (hwide : Wide env.network k) (s : Search) (c : Config)
    (collecting : Bool) :
    Lasts env rank ends k 2 (bound env.network c) s ⟨c, collecting, 0⟩ := by
  intro γ hγ
  have hload : reach rank ends c.state γ ≤ k + (k + 1) * c.context.height := by
    have hle := StackContext.load_le hset.bounded ends (.ofStack γ)
    have hrank := hset.bounded c.state
    have hlength := Nat.mul_le_mul_left (k + 1) (StackContext.Has.length_le hγ)
    rw [StackContext.height_ofStack] at hle
    dsimp only at hlength
    unfold reach Network.reachDepth
    split <;> omega
  have hslack : slack env k s ⟨c, collecting, 0⟩ ≤ (2 * k + 4) * (4 * env.network.states.size + 1) := by
    unfold slack
    split
    · exact Nat.zero_le _
    · exact Nat.le_refl _
  unfold Wide at hwide
  unfold bound
  dsimp only
  generalize Nat.pow (env.network.states.size + 1) (env.network.starts.size + 1) = wide at hwide
  generalize env.network.states.size = size at hwide hslack
  generalize c.context.height = height at hload
  have hheight : (k + 1) * height ≤ wide * height := by
    refine Nat.mul_le_mul_right _ (Nat.le_trans ?_ hwide)
    have := Nat.le_mul_of_pos_right (k + 2) (show 0 < 4 * size + 2 by omega)
    omega
  have hsize : (2 * k + 4) * (4 * size + 1) = 2 * ((k + 2) * (4 * size + 2)) - (2 * k + 4) := by
    have : (2 * k + 4) * (4 * size + 1) + (2 * k + 4) = 2 * ((k + 2) * (4 * size + 2)) := by ring
    omega
  have hbound : 2 * wide * (height + 2) = 2 * (wide * height) + 4 * wide := by ring
  have hpos : k + 2 ≤ (k + 2) * (4 * size + 2) := Nat.le_mul_of_pos_right _ (by omega)
  omega

theorem closure_ok (hset : Setting env rank ends k) (hwide : Wide env.network k) (hkept : Kept env Ψ Φ)
    {c : Config} {collecting : Bool} (hs : Sound env.network.states.size env.full Φ s)
    (hc : Ψ ⟨c, collecting, 0⟩)
    (hproper : Proper env.network.states.size (!env.full) c.context) :
    ∃ s', closure env c collecting s = .ok ⟨⟩ s' ∧ Sound env.network.states.size env.full Φ s' ∧ Onward s s' :=
  settle_ok hset hkept (bound env.network c) ⟨c, collecting, 0⟩ none s
    ⟨hc, hproper, fun γ _ => by simp⟩ hs (fun v hv => by cases hv) (lasts_bound hset hwide s c collecting)

def entrance (e : Edge) (i : Nat) (context : StackContext) : Config :=
  { state := e.target, alt := i + 1, context }

theorem start_ok (n : Nat) (context : StackContext) (hset : Setting env rank ends k) (hwide : Wide env.network k)
    (hkept : Kept env Ψ Φ) (hs : Sound env.network.states.size env.full Φ s)
    (hproper : Proper env.network.states.size (!env.full) context)
    (hstart : ∀ i e, (env.network.edges n)[i]? = some e → Ψ ⟨entrance e i context, true, 0⟩) :
    ∃ s', start env n context s = .ok ⟨⟩ s' ∧ Sound env.network.states.size env.full Φ s' := by
  obtain ⟨_, s', hrun, hs', -⟩ := Run.forIn_keeps
    (f := fun (p : Edge × Nat) (_ : PUnit) => (do
      modify ({ · with visits := #[] })
      closure env (entrance p.1 p.2 context) true
      return .yield ⟨⟩ : SearchM (ForInStep PUnit)))
    (P := Sound env.network.states.size env.full Φ) (R := fun _ _ => True)
    (l := (env.network.edges n).toList.zipIdx) (fun _ => trivial) (fun _ _ _ _ _ => trivial) (a := s)
    (by
      rintro ⟨e, i⟩ hp _ s₁ hs₁ -
      have he := List.mk_mem_zipIdx_iff_getElem?.1 hp
      rw [Array.getElem?_toList] at he
      have hcleared : Sound env.network.states.size env.full Φ { s₁ with visits := #[] } :=
        ⟨hs₁.fine, hs₁.known, fun j v i hj => by simp at hj, fun j k v w i hj => by simp at hj⟩
      obtain ⟨s₂, hrun, hs₂, -⟩ := closure_ok hset hwide hkept hcleared (hstart i e he) hproper
      refine ⟨⟨⟩, s₂, ?_, hs₂, trivial⟩
      rw [Run.modify_bind, Run.bind_ok hrun]
      rfl)
    PUnit.unit hs
  exact ⟨s', Run.bind_ok hrun, hs'⟩

end Prediction

end Throbac
