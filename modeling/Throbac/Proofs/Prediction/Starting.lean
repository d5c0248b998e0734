import Throbac.Proofs.Prediction.Growing

/-!
# The start of a choice

Where a choice begins: the configurations of its alternatives under the stack of the rules in progress,
and the state of the automaton that stands for them.
-/
namespace Throbac

open StackContext (Proper Known)

namespace StackContext

variable {size : Nat} {γ δ : List Nat}

theorem proper_ofStack (wild : Bool) (h : ∀ r ∈ γ, r < size) : Proper size wild (ofStack γ) := by
  induction γ with
  | nil => exact .empty
  | cons r γ ih =>
    have hr := h r List.mem_cons_self
    exact .single ⟨by omega, by omega⟩ (ih fun n hn => h n (List.mem_cons_of_mem _ hn))

theorem has_ofStack (hsize : (size : Int) ≤ bottom) (h : ∀ r ∈ γ, r < size) : (ofStack γ).Has δ ↔ δ = γ := by
  induction γ generalizing δ with
  | nil => exact has_empty
  | cons r γ ih =>
    have hr := h r List.mem_cons_self
    rw [ofStack, has_single (by omega)]
    constructor
    · rintro ⟨δ', rfl, hδ'⟩
      rw [(ih fun n hn => h n (List.mem_cons_of_mem _ hn)).1 hδ']
    · rintro rfl
      exact ⟨γ, rfl, (ih fun n hn => h n (List.mem_cons_of_mem _ hn)).2 rfl⟩

end StackContext

theorem Invoked.ofStack {net : Network} {cs : List Int} (h : Invoked net cs) :
    ∃ γ, StackContext.ofInvocations net cs = .ok (.ofStack γ) ∧ ∀ r ∈ γ, r < net.states.size := by
  induction h with
  | outermost _ => exact ⟨[], rfl, by simp⟩
  | @call n follow rule precedence cs hn hf hcall hrest ih =>
    obtain ⟨γ, hγ, hmem⟩ := ih
    obtain ⟨c', cs, rfl⟩ := List.exists_cons_of_ne_nil hrest.ne_nil
    refine ⟨follow :: γ, ?_, List.forall_mem_cons.2 ⟨hf, hmem⟩⟩
    rw [StackContext.ofInvocations, hγ]
    · simp only [bind, Except.bind, Lookahead.stateAt_natCast hn, Invoked.followOf hcall]
      rw [(StackContext.proper_ofStack false hmem).push_eq]
      rfl
    · simp

namespace Prediction

variable {net : Network} {rank : Nat → Nat} {ends : Nat → Bool} {k d n : Nat} {r : Recognizer} {q : Question}
  {full : Bool} {Ψ : Stage → Prop} {Φ : Config → Prop}

theorem startSet_ok (callers : Callers) (γ : List Nat) (hnet : Mapped net rank ends k) (hr : Calm net r)
    (hcallers : StackContext.ofInvocations net callers.invocations = .ok (.ofStack γ))
    (hγ : ∀ r ∈ γ, r < net.states.size) (hkept : Kept (surroundings q r full false) Ψ Φ)
    (hstart : ∀ i e, (net.edges (autoOf q r).origin)[i]? = some e → Ψ ⟨entrance e i (.ofStack γ), true, 0⟩)
    (hknown : Known net.states.size (!full) r.merges) :
    ∃ set r', startSet q callers full r = .ok set r' ∧ Searched net full r r' ∧
      set.Fine net.states.size full Φ := by
  have henv : (surroundings q r full false).network = net := hr.network
  have hset : Setting (surroundings q r full false) rank ends k := hr.setting hnet
  obtain ⟨s, hrun, hs⟩ := start_ok (s := { set := { fullContext := full }, cache := r.merges })
    (autoOf q r).origin (.ofStack γ) hset (henv ▸ hnet.wide) hkept
    ⟨fine_new _ _, by rw [henv]; exact hknown, by simp, by simp⟩
    (by rw [henv]; exact StackContext.proper_ofStack _ hγ) (by rw [henv]; exact hstart)
  rw [henv] at hs
  obtain ⟨r', hsearch, hsearched⟩ := search_ok
    (m := fun env => start env (autoOf q r).origin (.ofStack γ)) hrun hs
  refine ⟨s.set, r', ?_, hsearched, hs.fine⟩
  have hcontext : StackContext.ofInvocations r.spec.network callers.invocations = .ok (.ofStack γ) := by
    rw [hr.network, hcallers]
  have hauto : automaton q r = .ok (autoOf q r) r := rfl
  rw [startSet, Run.get_bind]
  dsimp only
  rw [Run.bind_ok (Recognizer.ofFault_ok hcontext), Run.bind_ok hauto]
  exact hsearch

/-! ## How alternatives start -/

/-- A configuration at the start of a choice: where the alternative is known to start with certain
symbols, no other can be read first. -/
def Started (net : Network) (d : Nat) (c : Config) : Prop :=
  (1 ≤ c.alt ∧ c.alt ≤ net.width d) ∧
    ∀ xs, Grammar.opening d c.alt = some xs → c.outer ≤ 0 ∧ net.Opens xs c.state

theorem Started.step {env : Surroundings} (hthrough : env.throughEof = false) {x y : Stage}
    (hstep : Step env x y) (hx : Started env.network d x.config) : Started env.network d y.config := by
  refine ⟨hstep.alt ▸ hx.1, fun xs hxs => ?_⟩
  obtain ⟨houter, hopens⟩ := hx.2 xs (hstep.alt ▸ hxs)
  cases hstep with
  | along he halong =>
    have hedge := hopens.edge he
    cases halong with
    | slip _ hsilent _ _ => exact ⟨houter, hedge.1 hsilent⟩
    | call _ hcall => exact ⟨houter, hedge.1 (isEpsilon_of_follow hcall)⟩
    | eof _ h => cases hthrough.symm.trans h
    | fall hstop => cases hopens.goes.symm.trans hstop
  | back hstop => cases hopens.goes.symm.trans hstop
  | ground hstop => cases hopens.goes.symm.trans hstop

theorem mergeable_started (size : Nat) (wild : Bool) : Mergeable size wild (Started net d) := by
  intro e c m hshare he hc _
  refine ⟨he.1, fun xs hxs => ⟨?_, (he.2 xs hxs).2⟩⟩
  have halt : c.alt = e.alt := (Config.sharesPlace_iff.1 hshare).2.1
  exact max_le (he.2 xs hxs).1 (hc.2 xs (halt ▸ hxs)).1

theorem Started.kept (d : Nat) (env : Surroundings) (hthrough : env.throughEof = false) :
    Kept env (fun x => Started env.network d x.config) (Started env.network d) :=
  ⟨fun _ _ hstep hx => Started.step hthrough hstep hx, fun _ hx _ => hx, mergeable_started _ _⟩

theorem Started.begins {set : ConfigSet} (h : ∀ c ∈ set.configs, Started net d c) : Begins net d set := by
  intro c hc xs hxs
  obtain ⟨houter, hopens⟩ := (h c hc).2 xs hxs
  exact ⟨houter, hopens.goes, fun e he t ht => (hopens.edge he).2 t ht⟩

/-- The alternatives at a state begin as the grammar has them begin. -/
def Openings (net : Network) (d n : Nat) : Prop :=
  ∀ (i : Nat) e xs, (net.edges n)[i]? = some e → Grammar.opening d (i + 1) = some xs → net.Opens xs e.target

theorem started_entrance (hwidth : net.width d = (net.edges n).size) (hopens : Openings net d n)
    {i : Nat} {e : Edge} (he : (net.edges n)[i]? = some e) (context : StackContext) :
    Started net d (entrance e i context) := by
  have hlt := (Array.getElem?_eq_some_iff.1 he).1
  refine ⟨⟨?_, ?_⟩, fun xs hxs => ⟨Int.le_refl 0, hopens i e xs he hxs⟩⟩ <;> simp only [entrance]
  · omega
  · rw [hwidth]
    omega

section

variable (hnet : Mapped net rank ends k) (hr : Calm net r) (hq : Equipped net q r)
  (hopens : Openings net q.decision (autoOf q r).origin) (hknown : Known net.states.size true r.merges)
include hnet hr hq hopens hknown

theorem startSet_started :
    ∃ set r', startSet q [] false r = .ok set r' ∧ Searched net false r r' ∧
      set.Fine net.states.size false (Started net q.decision) := by
  have henv : (surroundings q r false false).network = net := hr.network
  have hwidth : net.width q.decision = (net.edges (autoOf q r).origin).size := by
    rw [hq.cached.origin, Network.width, Int.toNat_natCast]
  exact startSet_ok [] [] hnet hr rfl (by simp) (henv ▸ Started.kept q.decision (surroundings q r false false) rfl)
    (fun i e he => started_entrance hwidth hopens he _) hknown

end

/-! ## Precedences -/

theorem filterMapM_ok {α β : Type} {f : α → Except Fault (Option β)} (h : ∀ x, ∃ v, f x = .ok v)
    (l : List α) : ∃ ys, l.filterMapM f = .ok ys ∧ ∀ y ∈ ys, ∃ x ∈ l, f x = .ok (some y) := by
  induction l with
  | nil => exact ⟨[], rfl, by simp⟩
  | cons x l ih =>
    obtain ⟨v, hv⟩ := h x
    obtain ⟨ys, hys, hmem⟩ := ih
    have hrest : ∀ y ∈ ys, ∃ z ∈ x :: l, f z = .ok (some y) := by
      intro y hy
      obtain ⟨z, hz, hrun⟩ := hmem y hy
      exact ⟨z, List.mem_cons_of_mem _ hz, hrun⟩
    rw [List.filterMapM_cons, hv, hys]
    cases v with
    | none => exact ⟨ys, rfl, hrest⟩
    | some y => exact ⟨y :: ys, rfl, List.forall_mem_cons.2 ⟨⟨x, List.mem_cons_self, hv⟩, hrest⟩⟩

theorem filterPrecedence_ok (hsize : (net.states.size : Int) ≤ StackContext.bottom) (hr : Calm net r)
    (hΦ : Mergeable net.states.size true Φ) (hguard : ∀ c g, Φ c → Φ { c with guard := g }) {set : ConfigSet}
    (hset : set.Fine net.states.size false Φ) (hknown : Known net.states.size true r.merges) :
    ∃ set' r', filterPrecedence q set r = .ok set' r' ∧ Searched net false r r' ∧
      set'.Fine net.states.size false Φ := by
  let decided : Config → Except Fault (Option Config) := fun c => do
    return (← c.guard.reduce (r.oracle q.asked.isSome)).map fun guard => { c with guard }
  have hdecided : ∀ c, ∃ v : Option Guard, decided c = .ok (v.map fun guard => { c with guard }) := by
    intro c
    obtain ⟨v, hv⟩ := Guard.reduce_ok (hr.decided q.asked.isSome) c.guard
    exact ⟨v, by simp only [decided, hv]; rfl⟩
  obtain ⟨first, hfirst, hmem⟩ := filterMapM_ok (l := set.configs.toList.filter (·.alt = 1)) (f := decided)
    fun c => (hdecided c).elim fun _ hv => ⟨_, hv⟩
  have hold : ∀ c ∈ first, ∃ d ∈ set.configs, ∃ g, c = { d with guard := g } := by
    intro c hc
    obtain ⟨d, hd, hrun⟩ := hmem c hc
    obtain ⟨v, hv⟩ := hdecided d
    obtain ⟨g, -, rfl⟩ := Option.map_eq_some_iff.1 (Except.ok.inj (hv.symm.trans hrun))
    exact ⟨d, Array.mem_toList_iff.1 (List.mem_filter.1 hd).1, g, rfl⟩
  obtain ⟨set', r', hrun, hsearched, hfine⟩ := gather_ok false (r := r) hsize hΦ
    (l := first ++ set.configs.toList.filter fun c => decide (c.alt ≠ 1 ∧ (c.spared ∨ !isReached first c))) (by
      intro c hc
      rcases List.mem_append.1 hc with hc | hc
      · obtain ⟨d, hd, g, rfl⟩ := hold c hc
        obtain ⟨hΦd, hproper⟩ := fine_mem hset hd
        exact ⟨hguard d g hΦd, hproper⟩
      · exact fine_mem hset (Array.mem_toList_iff.1 (List.mem_filter.1 hc).1)) hknown
  refine ⟨set', r', ?_, hsearched, hfine⟩
  rw [filterPrecedence, Run.get_bind]
  dsimp only
  rw [Run.bind_ok (Recognizer.ofFault_ok hfirst), hset.fullContext]
  exact hrun

/-! ## The state where a choice begins -/

theorem settled_start {set : ConfigSet} (hfine : set.Fine net.states.size false (Started net d)) :
    Settled net d { configs := set } := by
  have hnot : ¬ Accepting set := by
    rintro (h | h)
    · exact h hfine.unsettled.1
    · rw [hfine.unsettled.2] at h
      cases h
  refine ⟨hfine.fullContext, fun c hc => (fine_mem hfine hc).2, fun c hc => (fine_mem hfine hc).1.1,
    ⟨fun h => (by cases h), fun h => absurd h hnot⟩, ⟨fun h => (by cases h), fun h => ?_⟩,
    fun h => absurd hfine.unsettled.1 h, fun alts h => ?_, fun h => (by cases h), fun gs h => (by cases h)⟩
  · exact absurd (.inr h) hnot
  · exact absurd (.inr (by rw [h]; rfl)) hnot

theorem begins_of_byPrecedence {a : Automaton ConfigSet} {s : AutoState ConfigSet} {n : Nat} (h : Cached net d a)
    (hby : a.byPrecedence = true) (hs : a.states[n]? = some s) : Begins net d s.configs := by
  intro c hc xs hxs
  have halts := (h.states n s hs).alts c hc
  rw [(h.byPrecedence hby).2 c.alt halts.1 halts.2] at hxs
  cases hxs

section

variable (hnet : Mapped net rank ends k) (hr : Calm net r) (hq : Equipped net q r)
  (hopens : Openings net q.decision (autoOf q r).origin) (hknown : Known net.states.size true r.merges)
include hnet hr hq hopens hknown

theorem findStart_loop (hby : (autoOf q r).byPrecedence = true) :
    ∃ n r' s, findStart q r = .ok n r' ∧ Tuned net q false r r' ∧ (autoOf q r').byPrecedence = true ∧
      (autoOf q r').states[n]? = some s := by
  obtain ⟨set, r₁, hrun₁, hsearched₁, hfine₁⟩ := startSet_started hnet hr hq hopens hknown
  have htuned₁ : Tuned net q false r r₁ := hsearched₁.tuned hq
  have hcalm₁ := hsearched₁.calm hr
  obtain ⟨set₂, r₂, hrun₂, hsearched₂, hfine₂⟩ := filterPrecedence_ok (q := q) hnet.charted.small hcalm₁
    (mergeable_started _ _) (fun _ _ h => h) hfine₁ hsearched₁.known
  have htuned₂ : Tuned net q false r r₂ := htuned₁.trans (hsearched₂.tuned htuned₁.equipped)
  obtain ⟨n, r₃, hadd, htuned₃, s, hs, -⟩ := addState_ok hnet.charted.small (hsearched₂.calm hcalm₁)
    htuned₂.equipped htuned₂.known (settled_start hfine₂) rfl hfine₂.readonly
  have hby₃ : (autoOf q r₃).byPrecedence = true := by
    rw [(htuned₂.trans htuned₃).grew.byPrecedence, hby]
  obtain ⟨a, hset, hcached, hgrew, hby'⟩ := htuned₃.equipped.cached.setPrecedenceStart hby₃ r₃.precedence ⟨s, hs⟩
  obtain ⟨r₄, hmodify, htuned₄, hauto₄⟩ := tuned_modify false htuned₃.equipped htuned₃.known
    (f := fun _ => a) hcached hgrew fun _ => .inl hby'
  obtain ⟨s', hs', -⟩ := hgrew.configs hs
  refine ⟨n, r₄, s', ?_, (htuned₂.trans htuned₃).trans htuned₄, by rw [hauto₄]; exact hby',
    by rw [hauto₄]; exact hs'⟩
  have hgetauto : ∀ r, automaton q r = .ok (autoOf q r) r := fun _ => rfl
  rw [findStart, Run.bind_ok hrun₁, Run.bind_ok (hgetauto r₁), hsearched₁.autoOf, if_pos hby, Run.bind_ok hrun₂,
    Run.bind_ok hadd, Run.bind_ok (hgetauto r₃), Run.get_bind, Run.bind_ok (Recognizer.ofFault_ok hset),
    Run.bind_ok hmodify]
  rfl

theorem findStart_plain (hby : (autoOf q r).byPrecedence = false) (hempty : (autoOf q r).states = #[]) :
    ∃ n r' s, findStart q r = .ok n r' ∧ Tuned net q false r r' ∧ (autoOf q r').start.isSome = true ∧
      (autoOf q r').states[n]? = some s ∧ Begins net q.decision s.configs := by
  obtain ⟨set, r₁, hrun₁, hsearched₁, hfine₁⟩ := startSet_started hnet hr hq hopens hknown
  have htuned₁ : Tuned net q false r r₁ := hsearched₁.tuned hq
  obtain ⟨n, r₂, hadd, htuned₂, s, hs, -, hconfigs⟩ := addState_ok hnet.charted.small (hsearched₁.calm hr)
    htuned₁.equipped htuned₁.known (settled_start hfine₁) rfl hfine₁.readonly
  have hbegins : Begins net q.decision s.configs := by
    refine Started.begins fun c hc => ?_
    rw [hconfigs (by rw [hsearched₁.autoOf]; exact hempty)] at hc
    exact (fine_mem hfine₁ hc).1
  have hgrew : Grew (autoOf q r₂) { autoOf q r₂ with start := some n } :=
    ⟨rfl, rfl, rfl, fun _ s hs => ⟨s, hs, rfl⟩⟩
  obtain ⟨r₃, hmodify, htuned₃, hauto₃⟩ := tuned_modify false htuned₂.equipped htuned₂.known
    (f := fun a => { a with start := some n }) (htuned₂.equipped.cached.setStart ⟨s, hs, hbegins⟩) hgrew
    fun _ => .inr rfl
  refine ⟨n, r₃, s, ?_, (htuned₁.trans htuned₂).trans htuned₃, by rw [hauto₃]; rfl, by rw [hauto₃]; exact hs,
    hbegins⟩
  have hgetauto : ∀ r, automaton q r = .ok (autoOf q r) r := fun _ => rfl
  rw [findStart, Run.bind_ok hrun₁, Run.bind_ok (hgetauto r₁), hsearched₁.autoOf, if_neg (by simp [hby]),
    Run.bind_ok hadd, Run.bind_ok hmodify]
  rfl

theorem findStart_ok (hbegun : Begun (autoOf q r) ∨ (autoOf q r).states = #[])
    (hfind : (autoOf q r).byPrecedence = false → (autoOf q r).start = none) :
    ∃ n r' s, findStart q r = .ok n r' ∧ Tuned net q false r r' ∧ Begun (autoOf q r') ∧
      (autoOf q r').states[n]? = some s ∧ Begins net q.decision s.configs := by
  cases hby : (autoOf q r).byPrecedence with
  | true =>
    obtain ⟨n, r', s, hrun, htuned, hby', hs⟩ := findStart_loop hnet hr hq hopens hknown hby
    exact ⟨n, r', s, hrun, htuned, .inl hby', hs, begins_of_byPrecedence htuned.equipped.cached hby' hs⟩
  | false =>
    have hempty : (autoOf q r).states = #[] := by
      refine hbegun.resolve_left fun h => ?_
      rcases h with h | h
      · cases hby.symm.trans h
      · rw [hfind hby] at h
        cases h
    obtain ⟨n, r', s, hrun, htuned, hstart, hs, hbegins⟩ := findStart_plain hnet hr hq hopens hknown hby hempty
    exact ⟨n, r', s, hrun, htuned, .inr hstart, hs, hbegins⟩

end

end Prediction

end Throbac
