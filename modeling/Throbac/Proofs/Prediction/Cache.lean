import Throbac.Proofs.Lexing.Cache
import Throbac.Proofs.Prediction.Chart

/-!
# The automata of a parser are caches

Each state of the automaton grown for a choice stands for a set of configurations, and its edges lead
where reading leads, up to how far a configuration went outside. Whatever is cached, the alternatives
of a state behind a symbol are therefore among those that could read it.
-/
namespace Throbac

open StackContext (Proper)

/-! ## Sets that count as one -/

namespace ConfigSet

variable {a b : ConfigSet} {full : Bool}

theorem same_iff : a.same b = true ↔ a.configs.size = b.configs.size ∧
    (∀ (i : Nat) c d, a.configs[i]? = some c → b.configs[i]? = some d → c.same d = true) ∧
    a.fullContext = b.fullContext ∧ a.uniqueAlt = b.uniqueAlt ∧ a.conflicting = b.conflicting ∧
    a.hasGuard = b.hasGuard ∧ a.dipsOutside = b.dipsOutside := by
  have hzip : (a.configs.toList.zip b.configs.toList).all (fun p => p.1.same p.2) = true ↔
      ∀ (i : Nat) c d, a.configs[i]? = some c → b.configs[i]? = some d → c.same d = true := by
    rw [List.all_eq_true]
    constructor
    · intro h i c d hc hd
      refine h (c, d) (List.mem_iff_getElem?.2 ⟨i, ?_⟩)
      rw [List.getElem?_zip_eq_some, Array.getElem?_toList, Array.getElem?_toList]
      exact ⟨hc, hd⟩
    · rintro h ⟨c, d⟩ hp
      obtain ⟨i, hi⟩ := List.mem_iff_getElem?.1 hp
      rw [List.getElem?_zip_eq_some, Array.getElem?_toList, Array.getElem?_toList] at hi
      exact h i c d hi.1 hi.2
  simp only [same, Bool.and_eq_true, beq_iff_eq, hzip, and_assoc]

theorem same_symm (h : a.same b = true) : b.same a = true := by
  rw [same_iff] at h ⊢
  obtain ⟨hsize, hconfigs, hrest⟩ := h
  refine ⟨hsize.symm, fun i c d hc hd => ?_, hrest.1.symm, hrest.2.1.symm, hrest.2.2.1.symm,
    hrest.2.2.2.1.symm, hrest.2.2.2.2.symm⟩
  have := Prediction.same_iff.1 (hconfigs i d c hd hc)
  exact Prediction.same_iff.2 ⟨this.1.symm, this.2.1.symm, this.2.2.1.symm, this.2.2.2.1.symm,
    this.2.2.2.2.symm⟩

theorem same_getElem? (h : a.same b = true) {i : Nat} {c : Config} (hc : a.configs[i]? = some c) :
    ∃ d, b.configs[i]? = some d ∧ c.same d = true := by
  obtain ⟨hsize, hconfigs, -⟩ := same_iff.1 h
  obtain ⟨hi, -⟩ := Array.getElem?_eq_some_iff.1 hc
  have hd : b.configs[i]? = some b.configs[i] := Array.getElem?_eq_getElem (hsize ▸ hi)
  exact ⟨_, hd, hconfigs i c _ hc hd⟩

theorem same_mem (h : a.same b = true) {c : Config} (hc : c ∈ a.configs) :
    ∃ d ∈ b.configs, c.same d = true := by
  obtain ⟨i, hi⟩ := Array.mem_iff_getElem?.1 hc
  obtain ⟨d, hd, hsame⟩ := same_getElem? h hi
  exact ⟨d, Array.mem_of_getElem? hd, hsame⟩

end ConfigSet

namespace Prediction

/-! ## What states and edges stand for -/

/-- The configuration can read the symbol, or has come to an end and stays there. -/
def Feeds (net : Network) (full : Bool) (t : Int) (c : Config) : Prop :=
  ((net.state c.state).isRuleStop = true ∧ (full = true ∨ t = Symbol.eof)) ∨
    ((net.state c.state).isRuleStop = false ∧
      ∃ e ∈ net.edges c.state, e.label.reads t 0 net.maxSymbol = true)

/-- The alternative has a configuration that can read the symbol. -/
def FedBy (net : Network) (full : Bool) (t : Int) (set : ConfigSet) (alt : Int) : Prop :=
  ∃ c ∈ set.configs, c.alt = alt ∧ Feeds net full t c

def Accepting (set : ConfigSet) : Prop := set.uniqueAlt ≠ 0 ∨ set.conflicting.isSome = true

/-- The second set is where the symbol leads from the first. -/
structure Leads (net : Network) (t : Int) (set set' : ConfigSet) : Prop where
  alts : ∀ c ∈ set'.configs, FedBy net false t set c.alt
  ended : t = Symbol.eof → Accepting set'

def LeadsTo (net : Network) (a : Automaton ConfigSet) (t : Int) (set : ConfigSet) : Target → Prop
  | .state m => ∃ s, a.states[m]? = some s ∧ Leads net t set s.configs
  | .failure => True

/-- A state of the automaton for a decision. -/
structure Settled (net : Network) (d : Nat) (s : AutoState ConfigSet) : Prop where
  fullContext : s.configs.fullContext = false
  proper : ∀ c ∈ s.configs.configs, Proper net.states.size true c.context
  alts : ∀ c ∈ s.configs.configs, 1 ≤ c.alt ∧ c.alt ≤ net.width d
  accepting : s.accepting = true ↔ Accepting s.configs
  needsStack : s.needsStack = true ↔ s.configs.conflicting.isSome = true
  unique : s.configs.uniqueAlt ≠ 0 → ∀ c ∈ s.configs.configs, c.alt = s.configs.uniqueAlt
  conflicting : ∀ alts, s.configs.conflicting = some alts →
    ∀ i, i ∈ alts ↔ ∃ c ∈ s.configs.configs, c.alt = i
  prediction : s.accepting = true → s.guards = none → ∃ c ∈ s.configs.configs, c.alt = s.prediction
  offered : ∀ gs, s.guards = some gs → ∀ p ∈ gs, ∃ c ∈ s.configs.configs, c.alt = p.2

/-- The configurations that a choice starts with: an alternative that is known to start with certain
symbols reads no other, and has not left its rule. -/
def Begins (net : Network) (d : Nat) (set : ConfigSet) : Prop :=
  ∀ c ∈ set.configs, ∀ xs, Grammar.opening d c.alt = some xs → c.outer ≤ 0 ∧
    (net.state c.state).isRuleStop = false ∧
      ∀ e ∈ net.edges c.state, ∀ t, e.label.reads t 0 net.maxSymbol = true → t ∈ xs

/-- An automaton whose states and edges are as they should be. -/
structure Cached (net : Network) (d : Nat) (a : Automaton ConfigSet) : Prop where
  origin : a.origin = net.decisions.getD d 0
  decision : a.decision = d
  byPrecedence : a.byPrecedence = true → ((net.state a.origin).kind = .starLoopEntry ∧
    (net.state a.origin).precedenceDecision = true) ∧
      ∀ alt : Int, 1 ≤ alt → alt ≤ net.width d → Grammar.opening d alt = none
  states : ∀ (n : Nat) s, a.states[n]? = some s → Settled net d s
  edges : ∀ (n : Nat) s, a.states[n]? = some s → ∀ t target, -1 ≤ t → s.edgeAt (t + 1).toNat = some target →
    LeadsTo net a t s.configs target
  start : ∀ n, a.start = some n → ∃ s, a.states[n]? = some s ∧ Begins net d s.configs
  starts : ∀ p n, a.precedenceStarts.getD p none = some n → ∃ s, a.states[n]? = some s

/-- An automaton that has grown: its states stand for the same sets. -/
structure Grew (a a' : Automaton ConfigSet) : Prop where
  origin : a'.origin = a.origin
  decision : a'.decision = a.decision
  byPrecedence : a'.byPrecedence = a.byPrecedence
  states : ∀ (n : Nat) s, a.states[n]? = some s → ∃ s', a'.states[n]? = some s' ∧ s' = { s with edges := s'.edges }

variable {net : Network} {a a' a'' : Automaton ConfigSet} {d n : Nat} {t : Int} {set set' : ConfigSet}
  {target : Target} {s : AutoState ConfigSet}

theorem Grew.refl (a : Automaton ConfigSet) : Grew a a := ⟨rfl, rfl, rfl, fun _ s h => ⟨s, h, rfl⟩⟩

theorem Grew.trans (h : Grew a a') (h' : Grew a' a'') : Grew a a'' := by
  refine ⟨h'.origin.trans h.origin, h'.decision.trans h.decision, h'.byPrecedence.trans h.byPrecedence, ?_⟩
  intro n s hs
  obtain ⟨s', hs', hsame⟩ := h.states n s hs
  obtain ⟨s'', hs'', hsame'⟩ := h'.states n s' hs'
  exact ⟨s'', hs'', by rw [hsame', hsame]⟩

theorem Grew.configs (h : Grew a a') (hs : a.states[n]? = some s) :
    ∃ s', a'.states[n]? = some s' ∧ s'.configs = s.configs := by
  obtain ⟨s', hs', hsame⟩ := h.states n s hs
  exact ⟨s', hs', by rw [hsame]⟩

theorem Grew.known (h : Grew a a') {P : ConfigSet → Prop}
    (hs : ∃ s, a.states[n]? = some s ∧ P s.configs) : ∃ s, a'.states[n]? = some s ∧ P s.configs := by
  obtain ⟨s, hs, hP⟩ := hs
  obtain ⟨s', hs', hsame⟩ := h.configs hs
  exact ⟨s', hs', hsame ▸ hP⟩

theorem Grew.exists (h : Grew a a') (hs : ∃ s, a.states[n]? = some s) : ∃ s, a'.states[n]? = some s := by
  obtain ⟨s, hs⟩ := hs
  obtain ⟨s', hs', -⟩ := h.configs hs
  exact ⟨s', hs'⟩

theorem LeadsTo.mono (h : LeadsTo net a t set target) (hg : Grew a a') : LeadsTo net a' t set target := by
  cases target with
  | state m => exact hg.known (P := Leads net t set) h
  | failure => exact h

theorem accepting_same (h : set.same set' = true) : Accepting set ↔ Accepting set' := by
  obtain ⟨-, -, -, hunique, hconflicting, -⟩ := ConfigSet.same_iff.1 h
  rw [Accepting, Accepting, hunique, hconflicting]

theorem Leads.same {set'' : ConfigSet} (h : Leads net t set set') (hsame : set'.same set'' = true) :
    Leads net t set set'' := by
  refine ⟨fun c hc => ?_, fun ht => (accepting_same hsame).1 (h.ended ht)⟩
  obtain ⟨c', hc', hsame'⟩ := ConfigSet.same_mem (ConfigSet.same_symm hsame) hc
  rw [(same_iff.1 hsame').2.1]
  exact h.alts c' hc'

theorem cached_ofDecision {byPrecedence : Bool}
    (hd : byPrecedence = true → ((net.state n).kind = .starLoopEntry ∧ (net.state n).precedenceDecision = true) ∧
      ∀ alt : Int, 1 ≤ alt → alt ≤ net.width d → Grammar.opening d alt = none)
    (ho : n = net.decisions.getD d 0) : Cached net d (.ofDecision n d byPrecedence) := by
  refine ⟨ho, rfl, hd, ?_, ?_, ?_, ?_⟩ <;> simp [Automaton.ofDecision]

theorem Cached.push (h : Cached net d a) (hs : Settled net d s) (hedges : s.edges = none) :
    Cached net d { a with states := a.states.push s } ∧ Grew a { a with states := a.states.push s } := by
  have hold : ∀ (m : Nat) x, a.states[m]? = some x → (a.states.push s)[m]? = some x := by
    intro m x hx
    obtain ⟨hm, -⟩ := Array.getElem?_eq_some_iff.1 hx
    rw [Array.getElem?_push, if_neg (by omega), hx]
  have hgrew : Grew a { a with states := a.states.push s } :=
    ⟨rfl, rfl, rfl, fun m x hx => ⟨x, hold m x hx, rfl⟩⟩
  have hsplit : ∀ (m : Nat) x, (a.states.push s)[m]? = some x → a.states[m]? = some x ∨ x = s := by
    intro m x hx
    rw [Array.getElem?_push] at hx
    split at hx
    · exact .inr (Option.some.inj hx).symm
    · exact .inl hx
  refine ⟨⟨h.origin, h.decision, h.byPrecedence, ?_, ?_, fun m hm => hgrew.known (h.start m hm),
    fun p m hm => hgrew.exists (h.starts p m hm)⟩, hgrew⟩
  · intro m x hx
    rcases hsplit m x hx with hx | rfl
    · exact h.states m x hx
    · exact hs
  · intro m x hx t target ht htarget
    rcases hsplit m x hx with hx | rfl
    · exact (h.edges m x hx t target ht htarget).mono hgrew
    · simp [AutoState.edgeAt, hedges] at htarget

theorem Cached.setEdge (h : Cached net d a) (hs : a.states[n]? = some s) (ht : -1 ≤ t)
    (hleads : LeadsTo net a t s.configs target) (count : Nat) :
    Cached net d (a.modify n fun x => x.setEdge count (t + 1).toNat target) ∧
      Grew a (a.modify n fun x => x.setEdge count (t + 1).toNat target) := by
  have hget : ∀ (m : Nat) x, (a.modify n fun x => x.setEdge count (t + 1).toNat target).states[m]? = some x →
      ∃ y, a.states[m]? = some y ∧
        (x = y ∨ (m = n ∧ x = y.setEdge count (t + 1).toNat target)) := by
    intro m x hx
    rw [Automaton.modify, Array.getElem?_modify] at hx
    split at hx
    · obtain ⟨y, hy, rfl⟩ := Option.map_eq_some_iff.1 hx
      exact ⟨y, hy, .inr ⟨(‹n = m›).symm, rfl⟩⟩
    · exact ⟨x, hx, .inl rfl⟩
  have hgrew : Grew a (a.modify n fun x => x.setEdge count (t + 1).toNat target) := by
    refine ⟨rfl, rfl, rfl, fun m x hx => ?_⟩
    by_cases hm : n = m
    · exact ⟨x.setEdge count (t + 1).toNat target, by simp [Automaton.modify, Array.getElem?_modify, hm, hx], rfl⟩
    · exact ⟨x, by simp [Automaton.modify, Array.getElem?_modify, hm, hx], rfl⟩
  refine ⟨⟨h.origin, h.decision, h.byPrecedence, ?_, ?_, fun m hm => hgrew.known (h.start m hm),
    fun p m hm => hgrew.exists (h.starts p m hm)⟩, hgrew⟩
  · intro m x hx
    obtain ⟨y, hy, rfl | ⟨-, rfl⟩⟩ := hget m x hx
    · exact h.states m _ hy
    · exact { h.states m y hy with }
  · intro m x hx t' target' ht' htarget
    obtain ⟨y, hy, rfl | ⟨rfl, rfl⟩⟩ := hget m x hx
    · exact (h.edges m _ hy t' target' ht' htarget).mono hgrew
    · obtain rfl : s = y := Option.some.inj (hs.symm.trans hy)
      rcases AutoState.edgeAt_setEdge htarget with ⟨hpos, rfl⟩ | hold
      · obtain rfl : t' = t := by omega
        exact hleads.mono hgrew
      · exact (h.edges m s hy t' target' ht' hold).mono hgrew

theorem Cached.setStart (h : Cached net d a)
    (hs : ∃ s, a.states[n]? = some s ∧ Begins net d s.configs) :
    Cached net d { a with start := some n } :=
  ⟨h.origin, h.decision, h.byPrecedence, h.states, h.edges, fun _ hm => Option.some.inj hm ▸ hs, h.starts⟩

theorem Cached.setPrecedenceStart (h : Cached net d a) (hb : a.byPrecedence = true) (p : Int)
    (hs : ∃ s, a.states[n]? = some s) :
    ∃ a', a.setPrecedenceStart p n = .ok a' ∧ Cached net d a' ∧ Grew a a' ∧ a'.byPrecedence = true := by
  rw [Automaton.setPrecedenceStart, if_neg (by simp [hb])]
  split
  · exact ⟨a, rfl, h, .refl a, hb⟩
  · refine ⟨_, rfl, ⟨h.origin, h.decision, h.byPrecedence, h.states, h.edges, h.start, ?_⟩,
      ⟨rfl, rfl, rfl, fun _ s hs => ⟨s, hs, rfl⟩⟩, hb⟩
    intro k m hm
    simp only [Array.set!_eq_setIfInBounds, Array.getD_eq_getD_getElem?, Array.getElem?_setIfInBounds] at hm
    split at hm
    · split at hm
      · obtain rfl : n = m := Option.some.inj hm
        exact hs
      · cases hm
    · refine h.starts k m ?_
      rw [Array.getElem?_append] at hm
      split at hm
      · rw [Array.getD_eq_getD_getElem?, hm]
      · rw [Array.getElem?_replicate] at hm
        split at hm <;> cases hm

end Prediction

end Throbac
