import Throbac.Proofs.Prediction.Cache
import Throbac.Proofs.Prediction.Groups

/-!
# Growing the automata

What a recognizer does to the automaton of a choice while it predicts: it adds states and edges, and
what it adds is as it should be. None of this fails, and the states known before stand for the same
sets as ever.
-/
namespace Throbac

open StackContext (Proper Known)

theorem array_set_self {α : Type} {xs : Array α} {i : Nat} {x : α} (h : xs[i]? = some x) :
    xs.set! i x = xs := by
  apply Array.ext_getElem?
  intro j
  rw [Array.set!_eq_setIfInBounds, Array.getElem?_setIfInBounds]
  split
  · next hij =>
    subst hij
    rw [h, if_pos (Array.getElem?_eq_some_iff.1 h).1]
  · rfl

theorem Recognizer.ofFault_ok {α : Type} {x : Except Fault α} {a : α} {r : Recognizer} (h : x = .ok a) :
    Recognizer.ofFault x r = .ok a r := by
  rw [h]
  rfl

theorem ConfigSet.share_ok {size : Nat} {set : ConfigSet} (hsize : (size : Int) ≤ StackContext.bottom)
    (hset : ∀ c ∈ set.configs, Proper size true c.context) (hreadonly : set.readonly = false)
    (contexts : ContextCache) :
    ∃ contexts', ConfigSet.share (set, contexts) = .ok ⟨⟩ (set, contexts') := by
  have hround : ∀ i, i < set.configs.size → ∀ contexts, ∃ contexts',
      shareAt i (set, contexts) = .ok ⟨⟩ (set, contexts') := by
    intro i hi contexts
    obtain ⟨b, r, hrun, -⟩ := StackContext.share_ok hsize (hset _ (Array.getElem_mem hi))
      (s := { cache := contexts }) (by simp [Sharing.Faithful])
    have hc : set.configs.getD i default = set.configs[i] := by simp [hi]
    have hself : set.configs.set! i set.configs[i] = set.configs :=
      array_set_self (Array.getElem?_eq_getElem hi)
    refine ⟨r.cache, ?_⟩
    rw [shareAt, hc, hrun]
    dsimp only
    rw [hself]
  have hrounds : ∀ is : List Nat, (∀ i ∈ is, i < set.configs.size) → ∀ contexts, ∃ contexts',
      is.forM shareAt (set, contexts) = .ok ⟨⟩ (set, contexts') := by
    intro is his
    induction is with
    | nil => exact fun contexts => ⟨contexts, rfl⟩
    | cons i is ih =>
      intro contexts
      obtain ⟨contexts₁, hrun₁⟩ := hround i (his i List.mem_cons_self) contexts
      obtain ⟨contexts₂, hrun₂⟩ := ih (fun j hj => his j (List.mem_cons_of_mem _ hj)) contexts₁
      exact ⟨contexts₂, (Run.bind_ok hrun₁).trans hrun₂⟩
  obtain ⟨contexts', hrun⟩ := hrounds (List.range set.configs.size) (fun i hi => List.mem_range.1 hi) contexts
  refine ⟨contexts', ?_⟩
  rw [share, Run.get_bind]
  dsimp only
  rw [hreadonly, if_neg Bool.false_ne_true]
  exact hrun

namespace Prediction

def autoOf (q : Question) (r : Recognizer) : Automaton ConfigSet := r.automata.getD q.decision {}

/-- The choice has an automaton that is as it should be. -/
structure Equipped (net : Network) (q : Question) (r : Recognizer) : Prop where
  lt : q.decision < r.automata.size
  cached : Cached net q.decision (autoOf q r)

/-- The automaton has a start state, or start states by precedence. -/
def Begun (a : Automaton ConfigSet) : Prop := a.byPrecedence = true ∨ a.start.isSome = true

/-- The automaton of the choice has grown; of the other automata none has changed. -/
structure Tuned (net : Network) (q : Question) (full : Bool) (r r' : Recognizer) : Prop where
  same : r' = { r with
    automata := r.automata.set! q.decision (autoOf q r')
    contexts := r'.contexts, merges := r'.merges, trace := r'.trace }
  known : Known net.states.size (!full) r'.merges
  equipped : Equipped net q r'
  grew : Grew (autoOf q r) (autoOf q r')
  begun : Begun (autoOf q r) → Begun (autoOf q r')

variable {net : Network} {rank : Nat → Nat} {ends : Nat → Bool} {k n : Nat} {r r' r'' : Recognizer}
  {q : Question} {full : Bool} {s : AutoState ConfigSet} {t : Int} {target : Target}

theorem autoOf_eq (h : Equipped net q r) : r.automata[q.decision]? = some (autoOf q r) := by
  rw [autoOf, Array.getD_eq_getD_getElem?, Array.getElem?_eq_getElem h.lt, Option.getD_some]

theorem set_autoOf (h : Equipped net q r) : r.automata.set! q.decision (autoOf q r) = r.automata :=
  array_set_self (autoOf_eq h)

theorem Tuned.refl (h : Equipped net q r) (hknown : Known net.states.size (!full) r.merges) :
    Tuned net q full r r :=
  ⟨by rw [set_autoOf h], hknown, h, .refl _, id⟩

theorem Tuned.trans (h : Tuned net q full r r') (h' : Tuned net q full r' r'') : Tuned net q full r r'' := by
  refine ⟨?_, h'.known, h'.equipped, h.grew.trans h'.grew, fun hb => h'.begun (h.begun hb)⟩
  have hset : r'.automata.set! q.decision (autoOf q r'') = r.automata.set! q.decision (autoOf q r'') := by
    rw [h.same]
    simp
  have := h'.same
  rw [hset, h.same] at this
  exact this

theorem Tuned.calm (h : Tuned net q full r r') (hr : Calm net r) : Calm net r' := by
  rw [h.same]
  exact ⟨hr.network, hr.watch, hr.decided⟩

theorem Searched.autoOf (h : Searched net full r r') : autoOf q r' = autoOf q r := by
  rw [h.same]
  rfl

theorem Searched.tuned (h : Searched net full r r') (hq : Equipped net q r) : Tuned net q full r r' := by
  have hauto : Prediction.autoOf q r' = Prediction.autoOf q r := h.autoOf
  refine ⟨?_, h.known, ⟨?_, ?_⟩, ?_, ?_⟩
  · rw [hauto, set_autoOf hq, h.same]
  · rw [h.same]
    exact hq.lt
  · rw [hauto]
    exact hq.cached
  · rw [hauto]
    exact .refl _
  · rw [hauto]
    exact id

theorem tuned_modify (full : Bool) (hq : Equipped net q r) (hknown : Known net.states.size (!full) r.merges)
    {f : Automaton ConfigSet → Automaton ConfigSet} (hcached : Cached net q.decision (f (autoOf q r)))
    (hgrew : Grew (autoOf q r) (f (autoOf q r))) (hbegun : Begun (autoOf q r) → Begun (f (autoOf q r))) :
    ∃ r', modifyAutomaton q f r = .ok ⟨⟩ r' ∧ Tuned net q full r r' ∧ autoOf q r' = f (autoOf q r) := by
  have hauto : autoOf q { r with automata := r.automata.modify q.decision f } = f (autoOf q r) := by
    have hget := autoOf_eq hq
    rw [autoOf, Array.getD_eq_getD_getElem?]
    dsimp only
    rw [Array.getElem?_modify, if_pos rfl, hget]
    rfl
  refine ⟨{ r with automata := r.automata.modify q.decision f }, rfl, ⟨?_, hknown, ⟨?_, ?_⟩, ?_, ?_⟩, hauto⟩
  · rw [hauto]
    have hset : r.automata.modify q.decision f = r.automata.set! q.decision (f (autoOf q r)) := by
      have hget := autoOf_eq hq
      apply Array.ext_getElem?
      intro i
      rw [Array.getElem?_modify, Array.set!_eq_setIfInBounds, Array.getElem?_setIfInBounds]
      split
      · next hi =>
        subst hi
        rw [hget, if_pos hq.lt]
        rfl
      · rfl
    rw [hset]
  · dsimp only
    rw [Array.size_modify]
    exact hq.lt
  · rw [hauto]
    exact hcached
  · rw [hauto]
    exact hgrew
  · rw [hauto]
    exact hbegun

theorem stateAt_eq (hs : (autoOf q r).states[n]? = some s) : stateAt q n r = .ok s r := by
  have hget : (autoOf q r).states.getD n default = s := by
    rw [Array.getD_eq_getD_getElem?, hs]
    rfl
  rw [← hget]
  rfl

theorem addState_ok (hsize : (net.states.size : Int) ≤ StackContext.bottom) (hr : Calm net r)
    (hq : Equipped net q r) (hknown : Known net.states.size (!full) r.merges)
    (hs : Settled net q.decision s) (hedges : s.edges = none) (hreadonly : s.configs.readonly = false) :
    ∃ n r', addState q s r = .ok n r' ∧ Tuned net q full r r' ∧ ∃ s', (autoOf q r').states[n]? = some s' ∧
      s'.configs.same s.configs = true ∧
      ((autoOf q r).states = #[] → s'.configs.configs = s.configs.configs) := by
  have hauto : automaton q r = .ok (autoOf q r) r := rfl
  rw [addState, Run.bind_ok hauto]
  cases hfind : (autoOf q r).states.findIdx? (fun x => x.configs.same s.configs) with
  | some n =>
    obtain ⟨hn, hsame, -⟩ := Array.findIdx?_eq_some_iff_getElem.1 hfind
    refine ⟨n, r, rfl, .refl hq hknown, _, Array.getElem?_eq_getElem hn, hsame, ?_⟩
    intro hempty
    rw [hempty] at hn
    exact absurd hn (by simp)
  | none =>
    obtain ⟨contexts, hshare⟩ := ConfigSet.share_ok hsize hs.proper hreadonly r.contexts
    have hsettled : Settled net q.decision { s with configs := s.configs.setReadonly true } := { hs with }
    let r₁ : Recognizer := { r with contexts }
    have htuned₁ : Tuned net q full r r₁ := by
      refine ⟨?_, hknown, ⟨hq.lt, hq.cached⟩, .refl _, id⟩
      change { r with contexts } = { r with automata := r.automata.set! q.decision (autoOf q r), contexts }
      rw [set_autoOf hq]
    obtain ⟨hcached, hgrew⟩ := hq.cached.push hsettled hedges
    obtain ⟨r₂, hmodify, htuned₂, hauto₂⟩ := tuned_modify full htuned₁.equipped hknown
      (f := fun a => { a with states := a.states.push { s with configs := s.configs.setReadonly true } })
      hcached hgrew id
    have hcalm := htuned₂.calm (htuned₁.calm hr)
    refine ⟨(autoOf q r).states.size, r₂, ?_, htuned₁.trans htuned₂,
      { s with configs := s.configs.setReadonly true }, ?_, ?_, fun _ => rfl⟩
    · have hset : shareSet s.configs r = .ok s.configs r₁ := by
        rw [shareSet, hshare]
      dsimp only
      rw [Run.bind_ok hset, Run.bind_ok hmodify, Run.bind_ok (hcalm.note rfl _)]
      rfl
    · rw [hauto₂]
      exact Array.getElem?_push_size
    · rw [ConfigSet.same_iff]
      refine ⟨rfl, fun i c d hc hd => ?_, rfl, rfl, rfl, rfl, rfl⟩
      obtain rfl := Option.some.inj (hc.symm.trans hd)
      exact same_iff.2 ⟨rfl, rfl, rfl, rfl, rfl⟩

/-! ## Edges -/

theorem setEdge_ok (hr : Calm net r) (hq : Equipped net q r) (hknown : Known net.states.size (!full) r.merges)
    (hs : (autoOf q r).states[n]? = some s) (hleads : LeadsTo net (autoOf q r) t s.configs target) :
    ∃ r', setEdge q n t target r = .ok ⟨⟩ r' ∧ Tuned net q full r r' := by
  rw [setEdge, Run.get_bind]
  split
  · exact ⟨r, rfl, .refl hq hknown⟩
  · obtain ⟨hcached, hgrew⟩ := hq.cached.setEdge hs (by omega) hleads (r.spec.network.maxSymbol + 2).toNat
    obtain ⟨r', hmodify, htuned, -⟩ := @tuned_modify _ _ _ full hq hknown
      (·.modify n fun s => s.setEdge (r.spec.network.maxSymbol + 2).toNat (t + 1).toNat target) hcached hgrew id
    refine ⟨r', ?_, htuned⟩
    rw [Run.bind_ok hmodify, (htuned.calm hr).note rfl]

theorem addEdge_ok (goal : Option (AutoState ConfigSet)) (hsize : (net.states.size : Int) ≤ StackContext.bottom)
    (hr : Calm net r) (hq : Equipped net q r) (hknown : Known net.states.size (!full) r.merges)
    (hs : (autoOf q r).states[n]? = some s)
    (hgoal : ∀ s', goal = some s' → Settled net q.decision s' ∧ s'.edges = none ∧
      s'.configs.readonly = false ∧ Leads net t s.configs s'.configs) :
    ∃ target r', addEdge q n t goal r = .ok target r' ∧ Tuned net q full r r' ∧
      LeadsTo net (autoOf q r') t s.configs target := by
  have hnote : ∀ line, Recognizer.note (·.all) line r = .ok ⟨⟩ r := fun line => hr.note rfl line
  cases goal with
  | none =>
    have hleads : LeadsTo net (autoOf q r) t s.configs .failure := trivial
    obtain ⟨r', hrun, htuned⟩ := setEdge_ok hr hq hknown hs hleads
    refine ⟨.failure, r', ?_, htuned, trivial⟩
    rw [addEdge, Run.bind_ok (hnote _), Run.bind_ok (Run.pure_apply _ _)]
    exact Run.bind_ok hrun
  | some s' =>
    obtain ⟨hsettled, hedges, hreadonly, hleads⟩ := hgoal s' rfl
    obtain ⟨m, r₁, hadd, htuned₁, s₁, hs₁, hsame, -⟩ :=
      addState_ok hsize hr hq hknown hsettled hedges hreadonly
    have hto : LeadsTo net (autoOf q r₁) t s.configs (.state m) :=
      ⟨s₁, hs₁, hleads.same (ConfigSet.same_symm hsame)⟩
    obtain ⟨s₂, hs₂, hconfigs⟩ := htuned₁.grew.configs hs
    obtain ⟨r₂, hset, htuned₂⟩ := setEdge_ok (htuned₁.calm hr) htuned₁.equipped htuned₁.known hs₂
      (hconfigs.symm ▸ hto)
    refine ⟨.state m, r₂, ?_, htuned₁.trans htuned₂, hto.mono htuned₂.grew⟩
    rw [addEdge, Run.bind_ok (hnote _), Run.bind_ok (Run.map_ok hadd)]
    exact Run.bind_ok hset

/-! ## States for sets -/

variable {reach : ConfigSet} {d : Nat} {Φ : Config → Prop}

theorem alt_of_uniqueAlt (h : uniqueAlt reach ≠ 0) {c : Config} (hc : c ∈ reach.configs) :
    c.alt = uniqueAlt reach := by
  rw [← Array.mem_toList_iff] at hc
  unfold uniqueAlt at h ⊢
  cases hconfigs : reach.configs.toList with
  | nil =>
    rw [hconfigs] at hc
    cases hc
  | cons e rest =>
    rw [hconfigs] at h hc
    by_cases hall : rest.all (·.alt = e.alt) = true
    · simp only [hall, if_true]
      rcases List.mem_cons.1 hc with rfl | hc
      · rfl
      · simpa using List.all_eq_true.1 hall c hc
    · simp [hall] at h

/-- The state for a set holds its configurations, and accepts where it must. -/
structure StateFor (net : Network) (d : Nat) (reach : ConfigSet) (s : AutoState ConfigSet) : Prop where
  settled : Settled net d s
  edges : s.edges = none
  readonly : s.configs.readonly = false
  configs : s.configs.configs = reach.configs
  guards : s.guards = none
  ended : reach.allAtStop net = true → Accepting s.configs

theorem stateFor_ok (hfine : reach.Fine net.states.size false Φ) (hne : reach.configs ≠ #[])
    (halts : ∀ c, Φ c → 1 ≤ c.alt ∧ c.alt ≤ net.width d) :
    ∃ s, stateFor net .ll reach = .ok s ∧ StateFor net d reach s := by
  obtain ⟨c₀, hc₀⟩ := Array.exists_mem_of_ne_empty _ hne
  have halt : ∀ c ∈ reach.configs, 1 ≤ c.alt ∧ c.alt ≤ net.width d := fun c hc => halts c (fine_mem hfine hc).1
  have hproper : ∀ c ∈ reach.configs, Proper net.states.size true c.context := fun c hc => (fine_mem hfine hc).2
  have hunique := hfine.unsettled.1
  have hconflicting := hfine.unsettled.2
  by_cases hone : uniqueAlt reach = 0
  · obtain ⟨b, hends, hstop⟩ : ∃ b, Conflict.endsSll net .ll reach = .ok b ∧
        (reach.allAtStop net = true → b = true) := by
      rw [Conflict.endsSll]
      cases hall : reach.allAtStop net with
      | true => exact ⟨true, rfl, fun _ => rfl⟩
      | false => exact ⟨Conflict.anyConflict reach.conflictGroups && !reach.hasLoneState, rfl,
          fun h => by cases h⟩
    have hrun : stateFor net .ll reach = (do
        if ← Conflict.endsSll net .ll reach then
          let alts := ConfigSet.sorted reach.conflictGroups.flatten
          return { configs := { reach with conflicting := some alts }, accepting := true
                   needsStack := true, prediction := alts.headD 0 }
        return { configs := reach } : Except Fault (AutoState ConfigSet)) := by
      rw [stateFor]
      dsimp only
      rw [if_neg (by simp [hone])]
    rw [hrun, hends]
    cases b with
    | true =>
      have hmem : ∀ i, i ∈ ConfigSet.sorted reach.conflictGroups.flatten ↔ ∃ c ∈ reach.configs, c.alt = i := by
        intro i
        rw [ConfigSet.mem_sorted, ConfigSet.mem_conflictGroups_flatten]
      have hnonempty : reach.conflictGroups.flatten ≠ [] :=
        List.ne_nil_of_mem (ConfigSet.mem_conflictGroups_flatten.2 ⟨c₀, hc₀, rfl⟩)
      refine ⟨_, rfl, ⟨⟨hfine.fullContext, hproper, halt, ?_, ?_, ?_, ?_, ?_, ?_⟩, rfl, hfine.readonly, rfl, rfl, ?_⟩⟩
      · exact ⟨fun _ => .inr rfl, fun _ => rfl⟩
      · exact ⟨fun _ => rfl, fun _ => rfl⟩
      · exact fun h => absurd hunique h
      · rintro alts ⟨⟩
        exact hmem
      · intro _ _
        exact ConfigSet.mem_conflictGroups_flatten.1 (ConfigSet.headD_sorted_mem hnonempty 0)
      · exact fun gs hgs => by cases hgs
      · exact fun _ => .inr rfl
    | false =>
      have hnot : ¬ Accepting reach := by
        rintro (h | h)
        · exact h hunique
        · rw [hconflicting] at h
          cases h
      refine ⟨_, rfl, ⟨⟨hfine.fullContext, hproper, halt, ?_, ?_, ?_, ?_, ?_, ?_⟩, rfl, hfine.readonly, rfl, rfl, ?_⟩⟩
      · exact ⟨fun h => (by cases h), fun h => absurd h hnot⟩
      · refine ⟨fun h => (by cases h), fun h => ?_⟩
        rw [hconflicting] at h
        cases h
      · exact fun h => absurd hunique h
      · intro alts h
        rw [hconflicting] at h
        cases h
      · exact fun h => by cases h
      · exact fun gs hgs => by cases hgs
      · exact fun h => by cases hstop h
  · have hrun : stateFor net .ll reach = .ok
        { configs := { reach with uniqueAlt := uniqueAlt reach }
          accepting := true
          prediction := uniqueAlt reach } := by
      rw [stateFor]
      dsimp only
      rw [if_pos hone]
      rfl
    refine ⟨_, hrun, ⟨⟨hfine.fullContext, hproper, halt, ?_, ?_, ?_, ?_, ?_, ?_⟩, rfl, hfine.readonly, rfl, rfl, ?_⟩⟩
    · exact ⟨fun _ => .inl hone, fun _ => rfl⟩
    · refine ⟨fun h => (by cases h), fun h => ?_⟩
      rw [hconflicting] at h
      cases h
    · exact fun _ c hc => alt_of_uniqueAlt hone hc
    · intro alts h
      rw [hconflicting] at h
      cases h
    · exact fun _ _ => ⟨c₀, hc₀, alt_of_uniqueAlt hone hc₀⟩
    · exact fun gs hgs => by cases hgs
    · exact fun _ => .inl hone

theorem guardsOf_ok (hr : Calm net r) (alts : List Int) (set : ConfigSet) (count : Nat) :
    ∃ o, guardsOf alts set count r = .ok o r ∧ ∀ gs, o = some gs → ∀ p ∈ gs, p.2 ∈ alts := by
  rw [guardsOf, Run.bind_ok (hr.note rfl _)]
  split
  · exact ⟨none, rfl, fun gs hgs => by cases hgs⟩
  · refine ⟨_, rfl, ?_⟩
    rintro gs ⟨⟩ p hp
    obtain ⟨⟨i, g⟩, hi, rfl⟩ := List.mem_map.1 hp
    simpa using (List.mem_filter.1 hi).2

theorem guardState_ok (hr : Calm net r) (hq : Equipped net q r) (hdecision : q.decision < net.decisions.size)
    (hs : Settled net q.decision s) (hguards : s.guards = none) (haccepting : s.accepting = true) :
    ∃ s', guardState q s r = .ok s' r ∧ Settled net q.decision s' ∧
      s' = { s with guards := s'.guards, prediction := s'.prediction } := by
  have horigin : r.spec.network.decisionState (autoOf q r).decision =
      .ok (some net.decisions[q.decision]) := by
    rw [hr.network, hq.cached.decision, Network.decisionState, if_neg (by
        rw [Array.isEmpty_iff]
        intro h
        simp [h] at hdecision), Sequence.arrayAt,
      Sequence.arrayAt?, Sequence.resolve?_natCast hdecision]
    simp [hdecision]
  obtain ⟨c₀, hc₀, -⟩ := hs.prediction haccepting hguards
  let alts := if s.configs.uniqueAlt ≠ 0 then [s.configs.uniqueAlt] else s.configs.conflicting.getD []
  have hmem : ∀ i ∈ alts, ∃ c ∈ s.configs.configs, c.alt = i := by
    intro i hi
    by_cases hone : s.configs.uniqueAlt = 0
    · rw [show alts = s.configs.conflicting.getD [] from if_neg (by simp [hone])] at hi
      cases hconflicting : s.configs.conflicting with
      | none =>
        rw [hconflicting] at hi
        cases hi
      | some l =>
        rw [hconflicting] at hi
        exact (hs.conflicting l hconflicting i).1 hi
    · rw [show alts = [s.configs.uniqueAlt] from if_pos hone, List.mem_singleton] at hi
      exact ⟨c₀, hc₀, hi ▸ hs.unique hone c₀ hc₀⟩
  have hne : alts ≠ [] := by
    by_cases hone : s.configs.uniqueAlt = 0
    · rw [show alts = s.configs.conflicting.getD [] from if_neg (by simp [hone])]
      rcases hs.accepting.1 haccepting with h | h
      · exact absurd hone h
      · obtain ⟨l, hl⟩ := Option.isSome_iff_exists.1 h
        rw [hl]
        exact List.ne_nil_of_mem ((hs.conflicting l hl c₀.alt).2 ⟨c₀, hc₀, rfl⟩)
    · rw [show alts = [s.configs.uniqueAlt] from if_pos hone]
      exact List.cons_ne_nil _ _
  obtain ⟨o, hrun, ho⟩ := guardsOf_ok hr alts s.configs (r.spec.network.edges net.decisions[q.decision]).size
  have hauto : automaton q r = .ok (autoOf q r) r := rfl
  have hstart : guardState q s r = .ok (guardedBy s alts o) r := by
    rw [guardState, Run.get_bind, Run.bind_ok hauto, horigin]
    exact Run.bind_ok hrun
  rw [hstart]
  cases o with
  | some gs =>
    refine ⟨_, rfl, { hs with prediction := fun _ h => (by cases h), offered := ?_ }, rfl⟩
    rintro _ ⟨⟩ p hp
    exact hmem _ (ho gs rfl p hp)
  | none =>
    refine ⟨_, rfl, { hs with prediction := fun _ _ => ?_ }, rfl⟩
    cases hl : alts with
    | nil => exact absurd hl hne
    | cons i is => exact hmem i (by rw [hl]; exact List.mem_cons_self)

/-! ## Where a symbol leads -/

theorem carried_alt {env : Surroundings} {A : Int → Prop} (hA : ∀ i, A i → 1 ≤ i) :
    Carried env fun c => A c.alt where
  step := fun _ _ hstep hx => hstep.alt ▸ hx
  config := fun _ hx _ => hx
  mergeable := fun _ _ _ _ he _ _ => he
  positive := fun c hc => hA c.alt hc

theorem computeTarget_ok (hnet : Mapped net rank ends k) (hr : Calm net r) (hmode : r.mode = .ll)
    (hq : Equipped net q r) (hdecision : q.decision < net.decisions.size)
    (hknown : Known net.states.size true r.merges) (hs : (autoOf q r).states[n]? = some s) :
    ∃ target r', computeTarget q n t r = .ok target r' ∧ Tuned net q false r r' ∧
      LeadsTo net (autoOf q r') t s.configs target := by
  have hsettled := hq.cached.states n s hs
  let A : Int → Prop := fun i => (1 ≤ i ∧ i ≤ net.width q.decision) ∧ FedBy net false t s.configs i
  have hreadable : Readable net false t (fun c => A c.alt) s.configs := by
    refine ⟨hsettled.proper, fun c hc hstop e he hreads => ⟨hsettled.alts c hc, ?_⟩,
      fun c hc hstop hstay => ⟨⟨hsettled.alts c hc, ?_⟩, ?_⟩⟩
    · exact ⟨c, hc, rfl, .inr ⟨hstop, e, he, hreads⟩⟩
    · exact ⟨c, hc, rfl, .inl ⟨hstop, hstay⟩⟩
    · exact fun h => (by cases h)
  obtain ⟨o, r₁, hadvance, hsearched, hreach⟩ := advance_ok hnet hr
    (carried_alt fun i hi => hi.1.1) hreadable hknown
  have htuned₁ : Tuned net q false r r₁ := hsearched.tuned hq
  have hcalm₁ := hsearched.calm hr
  have hs₁ : (autoOf q r₁).states[n]? = some s := by
    rw [hsearched.autoOf]
    exact hs
  have hstart : computeTarget q n t r = leadTo q n t o r₁ :=
    (Run.bind_ok (stateAt_eq hs)).trans (Run.bind_ok hadvance)
  rw [hstart]
  cases o with
  | none =>
    obtain ⟨target, r₂, hadd, htuned₂, hleads⟩ := addEdge_ok none hnet.charted.small hcalm₁
      htuned₁.equipped htuned₁.known hs₁ (fun _ h => by cases h)
    exact ⟨target, r₂, hadd, htuned₁.trans htuned₂, hleads⟩
  | some reach =>
    obtain ⟨hne, hfine, hended⟩ := hreach reach rfl
    obtain ⟨s₁, hstate, hfor⟩ := stateFor_ok (d := q.decision) hfine hne fun c hc => hc.1
    have hleads : Leads net t s.configs s₁.configs := by
      refine ⟨fun c hc => ?_, fun heof => hfor.ended ?_⟩
      · rw [hfor.configs] at hc
        exact (fine_mem hfine hc).1.2
      · have hfine' := hended.resolve_left fun h => h.1 heof
        rw [ConfigSet.allAtStop, Array.all_eq_true_iff_forall_mem]
        exact fun c hc => (fine_mem hfine' hc).1.2 heof
    obtain ⟨s₂, hguard, hsettled₂, hsame₂⟩ : ∃ s₂,
        (if s₁.accepting = true ∧ s₁.configs.hasGuard = true then guardState q s₁ else pure s₁) r₁ = .ok s₂ r₁ ∧
          Settled net q.decision s₂ ∧ s₂ = { s₁ with guards := s₂.guards, prediction := s₂.prediction } := by
      split
      · next h => exact guardState_ok hcalm₁ htuned₁.equipped hdecision hfor.settled hfor.guards h.1
      · exact ⟨s₁, rfl, hfor.settled, rfl⟩
    have hconfigs : s₂.configs = s₁.configs := by rw [hsame₂]
    obtain ⟨target, r₂, hadd, htuned₂, hto⟩ := addEdge_ok (some s₂) hnet.charted.small hcalm₁
      htuned₁.equipped htuned₁.known hs₁ (by
        rintro _ ⟨⟩
        refine ⟨hsettled₂, ?_, ?_, ?_⟩
        · rw [hsame₂]
          exact hfor.edges
        · rw [hconfigs]
          exact hfor.readonly
        · rw [hconfigs]
          exact hleads)
    refine ⟨target, r₂, ?_, htuned₁.trans htuned₂, hto⟩
    have hmode₁ : r₁.mode = .ll := by
      rw [hsearched.same]
      exact hmode
    have hstate₁ : stateFor r₁.spec.network r₁.mode reach = .ok s₁ := by rw [hcalm₁.network, hmode₁, hstate]
    have hnote : noteConflicts reach r₁ = .ok ⟨⟩ r₁ := hcalm₁.note rfl _
    rw [leadTo, Run.bind_ok hnote, Run.get_bind, Run.bind_ok (Recognizer.ofFault_ok hstate₁)]
    split at hguard
    · rw [if_pos ‹_›, Run.bind_ok hguard]
      exact hadd
    · rw [if_neg ‹_›, Run.bind_ok hguard]
      exact hadd

end Prediction

end Throbac
