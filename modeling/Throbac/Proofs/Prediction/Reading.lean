import Throbac.Prediction.Predict
import Throbac.Proofs.Prediction.Settling
import Throbac.Proofs.Prediction.Simplification

/-!
# Reading a symbol ahead

What a recognizer does to a set of configurations when it looks one symbol further: it moves those
that can read the symbol, and explores from there. None of this fails, and unless only one alternative is
left the set is closed afterwards.
-/
namespace Throbac

open StackContext (Proper Known)

/-- Edges stay within a rule, and calls return to the rule they are made in. -/
structure Network.Wired (net : Network) : Prop where
  stays : ∀ n, (net.state n).isRuleStop = false → ∀ e ∈ net.edges n, e.label.follow? = none →
    (net.state e.target).rule = (net.state n).rule
  returns : ∀ n, (net.state n).isRuleStop = false → ∀ e ∈ net.edges n, ∀ ret,
    e.label.follow? = some ret → (net.state ret).rule = (net.state n).rule

namespace Prediction

/-- A network in which predictions come to an end. -/
structure Mapped (net : Network) (rank : Nat → Nat) (ends : Nat → Bool) (k : Nat) : Prop where
  charted : Charted net rank ends
  bounded : ∀ n, rank n ≤ k
  wired : net.Wired
  wide : Wide net k
  ends : ∀ n m, (net.state n).isRuleStop = true → (net.state m).isRuleStop = true →
    (net.state n).rule = (net.state m).rule → n = m
  choices : ∀ n ∈ net.decisions, (net.state n).isRuleStop = false ∧
    ∀ e ∈ net.edges n, ∃ outermost, e.label = .epsilon outermost

/-- A recognizer for the network that traces nothing and can decide every guard. -/
structure Calm (net : Network) (r : Recognizer) : Prop where
  network : r.spec.network = net
  watch : r.watch = {}
  decided : ∀ b, (r.oracle b).Total

/-- Only the cache of merged stacks has changed, and holds what it should. -/
structure Searched (net : Network) (full : Bool) (r r' : Recognizer) : Prop where
  same : r' = { r with merges := r'.merges, trace := r'.trace }
  known : Known net.states.size (!full) r'.merges

variable {net : Network} {rank : Nat → Nat} {ends : Nat → Bool} {k : Nat} {r r' r'' : Recognizer}
  {q : Question} {full throughEof : Bool} {Ψ : Stage → Prop} {Φ : Config → Prop} {set : ConfigSet}

theorem Calm.setting (h : Calm net r) (hnet : Mapped net rank ends k) :
    Setting (surroundings q r full throughEof) rank ends k := by
  refine ⟨?_, hnet.bounded, ?_, Guard.eval_ok (h.decided _)⟩
  · rw [surroundings, h.network]
    exact hnet.charted
  · rw [surroundings, h.watch]

theorem Searched.refl (h : Known net.states.size (!full) r.merges) : Searched net full r r := ⟨rfl, h⟩

theorem Searched.trans (h : Searched net full r r') (h' : Searched net full r' r'') :
    Searched net full r r'' := by
  refine ⟨?_, h'.known⟩
  rw [h'.same, h.same]

theorem Searched.calm (h : Searched net full r r') (hr : Calm net r) : Calm net r' := by
  rw [h.same]
  exact ⟨hr.network, hr.watch, hr.decided⟩

theorem Searched.surroundings (h : Searched net full r r') :
    surroundings q r' full throughEof = surroundings q r full throughEof := by
  rw [h.same]
  rfl

theorem Calm.note (h : Calm net r) {watched : Watch → Bool} (hw : watched {} = false) (line : RecM String) :
    Recognizer.note watched line r = .ok ⟨⟩ r := by
  rw [Recognizer.note, Run.get_bind, h.watch, hw]
  rfl

/-! ## Building sets -/

theorem fine_new (size : Nat) (Φ : Config → Prop) :
    ConfigSet.Fine size full Φ ({ fullContext := full } : ConfigSet) :=
  ⟨rfl, rfl, rfl, by simp, by simp, by simp, rfl, rfl⟩

theorem search_ok {m : Surroundings → SearchM Unit} {s : Search}
    (hm : m (surroundings q r full throughEof) { set := { fullContext := full }, cache := r.merges } = .ok ⟨⟩ s)
    (hs : Sound net.states.size full Φ s) :
    ∃ r', search q full throughEof m r = .ok s.set r' ∧ Searched net full r r' := by
  refine ⟨{ r with merges := s.cache, trace := r.trace ++ s.trace }, ?_, rfl, hs.known⟩
  rw [search, hm]

theorem extend_ok (hsize : (net.states.size : Int) ≤ StackContext.bottom)
    (hΦ : Mergeable net.states.size (!full) Φ) (hs : set.Fine net.states.size full Φ) {l : List Config}
    (hl : ∀ c ∈ l, Φ c ∧ Proper net.states.size (!full) c.context)
    (hknown : Known net.states.size (!full) r.merges) :
    ∃ set' r', extend set l r = .ok set' r' ∧ Searched net full r r' ∧
      set'.Fine net.states.size full Φ := by
  obtain ⟨set', cache, hrun, hcache, hfine⟩ := ConfigSet.addAll_ok hsize hΦ hs hl hknown
  exact ⟨set', { r with merges := cache }, by rw [extend, hrun], ⟨rfl, hcache⟩, hfine⟩

theorem gather_ok (full : Bool) (hsize : (net.states.size : Int) ≤ StackContext.bottom)
    (hΦ : Mergeable net.states.size (!full) Φ) {l : List Config}
    (hl : ∀ c ∈ l, Φ c ∧ Proper net.states.size (!full) c.context)
    (hknown : Known net.states.size (!full) r.merges) :
    ∃ set r', gather full l r = .ok set r' ∧ Searched net full r r' ∧ set.Fine net.states.size full Φ :=
  extend_ok hsize hΦ (fine_new _ _) hl hknown

/-! ## Exploring from several configurations -/

theorem closures_ok {env : Surroundings} (hset : Setting env rank ends k) (hwide : Wide env.network k)
    (hkept : Kept env Ψ Φ) {l : List Config} {s : Search}
    (hl : ∀ c ∈ l, Ψ ⟨c, false, 0⟩ ∧ Proper env.network.states.size (!env.full) c.context)
    (hs : Sound env.network.states.size env.full Φ s) :
    ∃ s', (l.forM fun c => closure env c false) s = .ok ⟨⟩ s' ∧
      Sound env.network.states.size env.full Φ s' := by
  induction l generalizing s with
  | nil => exact ⟨s, rfl, hs⟩
  | cons c l ih =>
    obtain ⟨hc, hproper⟩ := hl c List.mem_cons_self
    obtain ⟨s₁, hrun₁, hs₁, -⟩ := closure_ok hset hwide hkept hs hc hproper
    obtain ⟨s₂, hrun₂, hs₂⟩ := ih (fun d hd => hl d (List.mem_cons_of_mem _ hd)) hs₁
    exact ⟨s₂, (Run.bind_ok hrun₁).trans hrun₂, hs₂⟩

/-! ## Moving on by a symbol -/

variable {t : Int} {c : Config}

theorem mem_movesOf : c ∈ movesOf net set t ↔ ∃ d ∈ set.configs, (net.state d.state).isRuleStop = false ∧
    ∃ e ∈ net.edges d.state, e.label.reads t 0 net.maxSymbol = true ∧ { d with state := e.target } = c := by
  simp only [movesOf, List.mem_flatMap, List.mem_filter, Array.mem_toList_iff, List.mem_map,
    Bool.not_eq_true', and_assoc]

theorem mem_skippedOf : c ∈ skippedOf net set t full ↔
    (full = true ∨ t = Symbol.eof) ∧ c ∈ set.configs ∧ (net.state c.state).isRuleStop = true := by
  unfold skippedOf
  split
  · next h => simp only [List.mem_filter, Array.mem_toList_iff, h, true_and]
  · next h => simp only [List.not_mem_nil, h, false_and]

theorem advance_eq (hr : Calm net r) (t : Int) :
    advance q set t full r = (do
      let between ← gather full (movesOf net set t)
      let reach ← exploreOn q between (skippedOf net set t full) t full
      let reach ← keepEnded net reach t full
      let reach ← joinSkipped net reach (skippedOf net set t full) full
      return if reach.isEmpty then none else some reach : RecM (Option ConfigSet))
      { r with merges := some (r.merges.getD []) } := by
  have hquiet : noteTests set t { r with merges := some (r.merges.getD []) } =
      .ok ⟨⟩ { r with merges := some (r.merges.getD []) } := by
    rw [noteTests, Run.get_bind, if_neg (by simp [hr.watch])]
    rfl
  rw [advance, Run.bind_ok (hr.note rfl _), Run.modify_bind, Run.bind_ok hquiet, Run.get_bind]
  dsimp only
  rw [hr.network]

/-- With the full context a configuration at the end of a rule has nothing to return to. -/
def Ripe (net : Network) (full : Bool) (Φ : Config → Prop) (c : Config) : Prop :=
  Φ c ∧ (full = true → (net.state c.state).isRuleStop = true → c.context = .empty)

/-- What a set must be like for a symbol to be read from it: what is moved has the property `Φ`, and what
stays is ripe. -/
structure Readable (net : Network) (full : Bool) (t : Int) (Φ : Config → Prop) (set : ConfigSet) : Prop where
  proper : ∀ c ∈ set.configs, Proper net.states.size (!full) c.context
  moved : ∀ c ∈ set.configs, (net.state c.state).isRuleStop = false → ∀ e ∈ net.edges c.state,
    e.label.reads t 0 net.maxSymbol = true → Φ { c with state := e.target }
  ended : ∀ c ∈ set.configs, (net.state c.state).isRuleStop = true → full = true ∨ t = Symbol.eof →
    Ripe net full Φ c

/-- A property of configurations that is kept while a symbol is read. -/
structure Carried (env : Surroundings) (Φ : Config → Prop) : Prop extends
    Kept env (fun x => Φ x.config) Φ where
  positive : ∀ c, Φ c → 1 ≤ c.alt

theorem fine_of_mem {size : Nat} {Φ' : Config → Prop} (h : set.Fine size full Φ)
    (hall : ∀ c ∈ set.configs, Φ' c) : set.Fine size full Φ' :=
  { h with all := fun _ c hc => hall c (Array.mem_of_getElem? hc) }

theorem fine_mem {size : Nat} (h : set.Fine size full Φ) (hc : c ∈ set.configs) :
    Φ c ∧ Proper size (!full) c.context := by
  obtain ⟨i, hi⟩ := Array.mem_iff_getElem?.1 hc
  exact ⟨h.all i c hi, h.proper i c hi⟩

theorem mergeable_ripe {size : Nat} (hsize : (size : Int) ≤ StackContext.bottom) (net : Network)
    (h : Mergeable size (!full) Φ) : Mergeable size (!full) (Ripe net full Φ) := by
  intro e c m hshare he hc hm
  refine ⟨h e c m hshare he.1 hc.1 hm, fun hfull hstop => ?_⟩
  have hstate : c.state = e.state := (Config.sharesPlace_iff.1 hshare).1
  refine hm.proper.eq_empty_of_nil hsize fun γ hγ => ?_
  have := hm.sound γ hγ
  rw [he.2 hfull hstop, hc.2 hfull (by rw [hstate]; exact hstop)] at this
  exact StackContext.has_empty.1 (this.elim id id)

theorem Kept.ripe {env : Surroundings} (h : Kept env Ψ Φ)
    (hsize : (env.network.states.size : Int) ≤ StackContext.bottom) :
    Kept env Ψ (Ripe env.network env.full Φ) := by
  refine ⟨h.step, fun x hx hwaits => ⟨h.config x hx hwaits, fun hfull hstop => ?_⟩,
    mergeable_ripe hsize _ h.mergeable⟩
  rw [Waits, if_pos ⟨hstop, hfull⟩] at hwaits
  exact hwaits

theorem uniqueAlt_of_size_one (h : set.size = 1) (hpos : ∀ c ∈ set.configs, 1 ≤ c.alt) :
    uniqueAlt set ≠ 0 := by
  obtain ⟨c, hc⟩ := List.length_eq_one_iff.1 (show set.configs.toList.length = 1 from h)
  have := hpos c (Array.mem_toList_iff.1 (by rw [hc]; exact List.mem_singleton_self c))
  rw [uniqueAlt, hc]
  simp only [List.all_nil, if_true]
  omega

theorem exploreOn_ok (hnet : Mapped net rank ends k) (hr : Calm net r)
    (hΦ : Carried (surroundings q r full (t = Symbol.eof)) Φ) {between : ConfigSet} (skipped : List Config)
    (hbetween : between.Fine net.states.size full Φ)
    (hknown : Known net.states.size (!full) r.merges) :
    ∃ reach r', exploreOn q between skipped t full r = .ok reach r' ∧ Searched net full r r' ∧
      (skipped = [] ∧ t ≠ Symbol.eof ∧ reach = between ∧ uniqueAlt between ≠ 0 ∨
        reach.Fine net.states.size full (Ripe net full Φ)) := by
  unfold exploreOn
  split
  · next hsettled =>
    refine ⟨between, r, rfl, .refl hknown, .inl ⟨List.isEmpty_iff.1 hsettled.1, hsettled.2.1, rfl, ?_⟩⟩
    rcases hsettled.2.2 with hone | hunique
    · exact uniqueAlt_of_size_one hone fun c hc => hΦ.positive c (fine_mem hbetween hc).1
    · exact hunique
  · have hset : Setting (surroundings q r full (t = Symbol.eof)) rank ends k := hr.setting hnet
    have henv : (surroundings q r full (t = Symbol.eof)).network = net := hr.network
    have hkept := hΦ.toKept.ripe (by rw [henv]; exact hnet.charted.small)
    obtain ⟨s, hrun, hs⟩ := closures_ok (s := { set := { fullContext := full }, cache := r.merges })
      (l := between.configs.toList) hset (henv ▸ hnet.wide) hkept (by
        intro c hc
        rw [henv]
        exact fine_mem hbetween (Array.mem_toList_iff.1 hc))
      ⟨fine_new _ _, by rw [henv]; exact hknown, by simp, by simp⟩
    rw [henv] at hs
    obtain ⟨r', hsearch, hsearched⟩ := search_ok
      (m := fun env => between.configs.toList.forM fun c => closure env c false) hrun hs
    exact ⟨s.set, r', hsearch, hsearched, .inr hs.fine⟩

/-- At the end of the input a configuration is at the end of a rule. -/
def Closed (net : Network) (t : Int) (Φ : Config → Prop) (c : Config) : Prop :=
  Φ c ∧ (t = Symbol.eof → (net.state c.state).isRuleStop = true)

theorem mergeable_closed {size : Nat} {wild : Bool} (net : Network) (t : Int) (h : Mergeable size wild Φ) :
    Mergeable size wild (Closed net t Φ) :=
  fun e c m hshare he hc hm => ⟨h e c m hshare he.1 hc.1 hm, he.2⟩

theorem keepEnded_ok (hsize : (net.states.size : Int) ≤ StackContext.bottom)
    (hΦ : Mergeable net.states.size (!full) Φ) {reach : ConfigSet} (hreach : reach.Fine net.states.size full Φ)
    (hknown : Known net.states.size (!full) r.merges) :
    ∃ reach' r', keepEnded net reach t full r = .ok reach' r' ∧ Searched net full r r' ∧
      reach'.Fine net.states.size full (Closed net t Φ) ∧ (t ≠ Symbol.eof → reach' = reach) := by
  unfold keepEnded
  split
  · next hend =>
    obtain ⟨reach', r', hrun, hsearched, hfine⟩ := gather_ok full (r := r) hsize
      (mergeable_closed net t hΦ)
      (l := reach.configs.toList.filter fun c => (net.state c.state).isRuleStop) (by
        intro c hc
        obtain ⟨hc, hstop⟩ := List.mem_filter.1 hc
        have := fine_mem hreach (Array.mem_toList_iff.1 hc)
        exact ⟨⟨this.1, fun _ => hstop⟩, this.2⟩) hknown
    exact ⟨reach', r', hrun, hsearched, hfine, fun h => absurd hend.1 h⟩
  · next hend =>
    refine ⟨reach, r, rfl, .refl hknown, fine_of_mem hreach fun c hc => ⟨(fine_mem hreach hc).1, ?_⟩,
      fun _ => rfl⟩
    intro heof
    simp only [heof, true_and, Bool.not_eq_true', Bool.not_eq_false] at hend
    exact Array.all_eq_true_iff_forall_mem.1 hend c hc

theorem joinSkipped_ok (hsize : (net.states.size : Int) ≤ StackContext.bottom)
    (hΦ : Mergeable net.states.size (!full) Φ) {reach : ConfigSet} (hreach : reach.Fine net.states.size full Φ)
    (skipped : List Config) (hskipped : ∀ c ∈ skipped, Φ c ∧ Proper net.states.size (!full) c.context)
    (hknown : Known net.states.size (!full) r.merges) :
    ∃ reach' r', joinSkipped net reach skipped full r = .ok reach' r' ∧ Searched net full r r' ∧
      reach'.Fine net.states.size full Φ ∧ (skipped = [] → reach' = reach) := by
  unfold joinSkipped
  split
  · obtain ⟨reach', r', hrun, hsearched, hfine⟩ := extend_ok (r := r) hsize hΦ hreach hskipped hknown
    refine ⟨reach', r', hrun, hsearched, hfine, ?_⟩
    rintro rfl
    exact (EStateM.Result.ok.inj hrun).1.symm
  · exact ⟨reach, r, rfl, .refl hknown, hreach, fun _ => rfl⟩

theorem advance_ok (hnet : Mapped net rank ends k) (hr : Calm net r)
    (hΦ : Carried (surroundings q r full (t = Symbol.eof)) Φ) (hset : Readable net full t Φ set)
    (hknown : Known net.states.size (!full) r.merges) :
    ∃ o r', advance q set t full r = .ok o r' ∧ Searched net full r r' ∧
      ∀ reach, o = some reach → reach.configs ≠ #[] ∧ reach.Fine net.states.size full Φ ∧
        (t ≠ Symbol.eof ∧ uniqueAlt reach ≠ 0 ∨
          reach.Fine net.states.size full (Closed net t (Ripe net full Φ))) := by
  have hsize := hnet.charted.small
  have hmergeable : Mergeable net.states.size (!full) Φ := by
    have := hΦ.mergeable
    rwa [show (surroundings q r full (t = Symbol.eof)).network = net from hr.network] at this
  -- the cache is there from now on
  have hsearched₀ : Searched net full r { r with merges := some (r.merges.getD []) } := by
    refine ⟨rfl, fun l hl e he => ?_⟩
    cases hmerges : r.merges with
    | none =>
      rw [hmerges] at hl
      cases hl
      cases he
    | some l' =>
      rw [hmerges] at hl
      cases hl
      exact hknown l' hmerges e he
  obtain ⟨between, r₁, hrun₁, hsearched₁, hbetween⟩ := gather_ok full hsize hmergeable
    (l := movesOf net set t) (by
      intro c hc
      obtain ⟨d, hd, hstop, e, he, hlabel, rfl⟩ := mem_movesOf.1 hc
      exact ⟨hset.moved d hd hstop e he hlabel, hset.proper d hd⟩) hsearched₀.known
  have hsearched := hsearched₀.trans hsearched₁
  have hempty : ∀ {reach reach' : ConfigSet}, (if reach.isEmpty then none else some reach) = some reach' →
      reach' = reach ∧ reach.configs ≠ #[] := by
    intro reach reach' h
    split at h
    · cases h
    · next hempty => exact ⟨(Option.some.inj h).symm, fun h => hempty (by simp [ConfigSet.isEmpty, h])⟩
  obtain ⟨reach₂, r₂, hrun₂, hsearched₂, hcase⟩ := exploreOn_ok (q := q) (t := t)
    hnet (hsearched.calm hr)
    (by rw [hsearched.surroundings]; exact hΦ) (skippedOf net set t full) hbetween hsearched₁.known
  rcases hcase with ⟨hskipped, ht, rfl, hunique⟩ | hfine₂
  · -- one alternative is left, and what was moved is all there is
    obtain ⟨reach₃, r₃, hrun₃, hsearched₃, hfine₃, hsame₃⟩ := keepEnded_ok (t := t) hsize hmergeable
      hbetween hsearched₂.known
    obtain ⟨reach₄, r₄, hrun₄, hsearched₄, -, hsame₄⟩ := joinSkipped_ok hsize
      (mergeable_closed net t hmergeable) hfine₃ (skippedOf net set t full) (by simp [hskipped]) hsearched₃.known
    have hsame := (hsame₄ hskipped).trans (hsame₃ ht)
    have hrun : advance q set t full r = .ok (if reach₄.isEmpty then none else some reach₄) r₄ := by
      rw [advance_eq hr, Run.bind_ok hrun₁, Run.bind_ok hrun₂, Run.bind_ok hrun₃, Run.bind_ok hrun₄]
      rfl
    refine ⟨_, r₄, hrun, ((hsearched.trans hsearched₂).trans hsearched₃).trans hsearched₄, fun reach hreach => ?_⟩
    obtain ⟨rfl, hne⟩ := hempty hreach
    exact ⟨hne, hsame ▸ hbetween, .inl ⟨ht, hsame ▸ hunique⟩⟩
  · have hripe := mergeable_ripe hsize net hmergeable
    obtain ⟨reach₃, r₃, hrun₃, hsearched₃, hfine₃, -⟩ := keepEnded_ok (t := t) hsize hripe
      hfine₂ hsearched₂.known
    obtain ⟨reach₄, r₄, hrun₄, hsearched₄, hfine₄, -⟩ := joinSkipped_ok hsize
      (mergeable_closed net t hripe) hfine₃ (skippedOf net set t full) (by
        intro c hc
        obtain ⟨hstay, hc, hstop⟩ := mem_skippedOf.1 hc
        exact ⟨⟨hset.ended c hc hstop hstay, fun _ => hstop⟩, hset.proper c hc⟩) hsearched₃.known
    have hrun : advance q set t full r = .ok (if reach₄.isEmpty then none else some reach₄) r₄ := by
      rw [advance_eq hr, Run.bind_ok hrun₁, Run.bind_ok hrun₂, Run.bind_ok hrun₃, Run.bind_ok hrun₄]
      rfl
    refine ⟨_, r₄, hrun, ((hsearched.trans hsearched₂).trans hsearched₃).trans hsearched₄, fun reach hreach => ?_⟩
    obtain ⟨rfl, hne⟩ := hempty hreach
    exact ⟨hne, fine_of_mem hfine₄ fun c hc => (fine_mem hfine₄ hc).1.1.1, .inr hfine₄⟩

end Prediction

end Throbac
