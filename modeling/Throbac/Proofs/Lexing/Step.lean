import Throbac.Proofs.Lexing.Cache

/-!
# One step of a lexer

A lexer whose automaton is a cache of its network steps from the set behind a text to the set behind
one character more. Only the cache changes, and it grows.
-/
namespace Throbac

namespace Lexing

/-- A lexer that keeps no trace and whose first automaton is a cache of the network. -/
structure Ready (net : Network) (l : Lexer) : Prop where
  network : l.spec.network = net
  traced : l.traced = false
  automata : 0 < l.automata.size
  cached : Cached net (l.automata.getD 0 {})

def grown (l : Lexer) (as : Array (Automaton LexConfigs)) : Lexer := { l with automata := as }

/-- The first automaton has grown. -/
structure Extends (net : Network) (as bs : Array (Automaton LexConfigs)) : Prop where
  size : bs.size = as.size
  grows : Grows net (as.getD 0 {}) (bs.getD 0 {})

variable {net : Network} {l : Lexer} {as bs cs : Array (Automaton LexConfigs)}

theorem Extends.trans (h : Extends net as bs) (k : Extends net bs cs) : Extends net as cs :=
  ⟨k.size.trans h.size, h.grows.trans k.grows⟩

theorem Extends.known (h : Extends net as bs) {n : Nat} {u : List Char}
    (hk : Known net (as.getD 0 {}) n u) : Known net (bs.getD 0 {}) n u := h.grows.known n u hk

theorem explore_advance {env : Surroundings} {rank : Nat → Nat} (hp : Plain net rank)
    (he : Silent net env) (u : List Char) (t : Int) :
    Lexer.explore (advance env (after net 0 u) t) l = .ok (advanceSet net (after net 0 u) t) l := by
  simp [Lexer.explore, advance_eq hp he _ fun _ hx => sane_after hp hx]

theorem explore_start {env : Surroundings} {rank : Nat → Nat} (hp : Plain net rank)
    (he : Silent net env) (n : Nat) :
    Lexer.explore (start env n) l = .ok (startSet net n) l := by
  simp [Lexer.explore, start_eq hp he]

namespace Ready

theorem extends_self (h : Ready net l) : Extends net l.automata l.automata :=
  ⟨rfl, .refl h.cached⟩

theorem extend (h : Ready net l) (he : Extends net l.automata as) :
    Ready net (grown l as) :=
  ⟨h.network, h.traced, by simpa [grown, he.size] using h.automata, he.grows.cached⟩

theorem modifyAutomaton (h : Ready net l) {f : Automaton LexConfigs → Automaton LexConfigs}
    (hf : Grows net (l.automata.getD 0 {}) (f (l.automata.getD 0 {}))) :
    Extends net l.automata (l.automata.modify 0 f) ∧
      (l.automata.modify 0 f).getD 0 {} = f (l.automata.getD 0 {}) := by
  have h0 := h.automata
  have hget : (l.automata.modify 0 f).getD 0 {} = f (l.automata.getD 0 {}) := by
    simp [Array.getD, h0, Array.getElem_modify]
  exact ⟨⟨by simp, hget ▸ hf⟩, hget⟩

theorem stateAt (h : Ready net l) {n : Nat} {u : List Char}
    (hk : Known net (l.automata.getD 0 {}) n u) :
    ∃ st, Lexer.stateAt 0 n l = .ok st l ∧ st.configs = after net 0 u ∧
      Lexer.verdict net (after net 0 u) = .ok { st with edges := none } ∧
      ∀ c target, st.edgeAt (Char.toNat c) = some target →
        Leads net (l.automata.getD 0 {}) (u ++ [c]) target := by
  obtain ⟨st, hst, hc⟩ := hk
  refine ⟨st, ?_, hc, hc ▸ h.cached.verdicts n st hst, h.cached.edges n st hst u hc⟩
  have hget : (l.automata.getD 0 {}).states.getD n default = st := by
    rw [Array.getD_eq_getD_getElem?, hst]
    rfl
  simp only [Lexer.stateAt, Run.get_bind, Run.pure_apply, hget]

theorem note (h : Ready net l) (line : Unit → String) : Lexer.note line l = .ok ⟨⟩ l := by
  simp [Lexer.note, h.traced]

theorem surroundings (h : Ready net l) {s : CharStream} (hi : l.input = some s) (ahead eof : Bool) :
    ∃ env, Lexer.surroundings ahead eof l = .ok env l ∧ Silent net env := by
  have ht : Lexer.theInput l = .ok s l := by simp [Lexer.theInput, hi]
  simp only [Lexer.surroundings, Run.get_bind]
  exact ⟨_, Run.bind_ok ht, h.network, h.traced⟩

theorem addEdge (h : Ready net l) {n : Nat} {u : List Char} {c : Char} {target : Target}
    (hk : Known net (l.automata.getD 0 {}) n u)
    (hl : Leads net (l.automata.getD 0 {}) (u ++ [c]) target) :
    ∃ as, Lexer.addEdge 0 n c.toNat target l = .ok ⟨⟩ (grown l as) ∧
      Extends net l.automata as := by
  unfold Lexer.addEdge
  split
  · exact ⟨l.automata, rfl, h.extends_self⟩
  · refine ⟨_, ?_, (h.modifyAutomaton (f := fun a => a.modify n (·.setEdge 128 c.toNat target))
      (h.cached.setEdge hk hl)).1⟩
    simp [h.traced, Lexer.modifyAutomaton, grown]

section Stepping

variable {rank : Nat → Nat} {rs : List LexRule} (hp : Plain net rank)
  (hs : spellsRules net net.state 0 rs = true) (ht : net.tokenTypes.isSome = true)
include hp hs ht

theorem addState (h : Ready net l) (u : List Char) :
    ∃ as n, Lexer.addState 0 (after net 0 u) l = .ok n (grown l as) ∧
      Extends net l.automata as ∧ Known net (as.getD 0 {}) n u := by
  obtain ⟨st, hv, hc, he⟩ := exists_verdict hp hs ht u
  have hg : ({ after net 0 u with hasGuard := false } : LexConfigs) = after net 0 u := by
    exact congrArg (fun b => { after net 0 u with hasGuard := b }) (after_hasGuard u).symm
  simp only [Lexer.addState, Run.get_bind, hg, h.network, hv, Run.ofExcept_ok_bind]
  cases hn : (l.automata.getD 0 {}).states.findIdx? (fun s => decide (s.configs = after net 0 u)) with
  | some n =>
    obtain ⟨hlt, heq, _⟩ := Array.findIdx?_eq_some_iff_getElem.1 hn
    refine ⟨l.automata, n, rfl, h.extends_self, _, Array.getElem?_eq_getElem hlt, ?_⟩
    simpa using heq
  | none =>
    obtain ⟨hgrow, hknown⟩ := h.cached.push hc hv he
    obtain ⟨hext, hget⟩ :=
      h.modifyAutomaton (f := fun a => { a with states := a.states.push st }) hgrow
    exact ⟨_, _, rfl, hext, hget ▸ hknown⟩

theorem exploreStep (h : Ready net l) {s : CharStream} (hi : l.input = some s) {n : Nat}
    {u : List Char} (hk : Known net (l.automata.getD 0 {}) n u) (c : Char) :
    ∃ as target, (do
        let env ← Lexer.surroundings true (decide ((c.toNat : Int) = Symbol.eof))
        let reach ← Lexer.explore (advance env (after net 0 u) c.toNat)
        if reach.configs.isEmpty then
          if !reach.hasGuard then Lexer.addEdge 0 n c.toNat .failure
          return Target.failure
        let m ← Lexer.addState 0 reach
        if !reach.hasGuard then Lexer.addEdge 0 n c.toNat (.state m)
        return .state m : LexM Target) l = .ok target (grown l as) ∧
      Extends net l.automata as ∧ Leads net (as.getD 0 {}) (u ++ [c]) target := by
  obtain ⟨env, henv, hsilent⟩ := h.surroundings hi true (decide ((c.toNat : Int) = Symbol.eof))
  have hset := explore_advance (l := l) hp hsilent u c.toNat
  rw [← after_snoc] at hset
  simp only [Run.bind_ok henv, Run.bind_ok hset, after_hasGuard, Bool.not_false, if_true]
  by_cases hempty : (after net 0 (u ++ [c])).configs.isEmpty = true
  · obtain ⟨as, has, hext⟩ := h.addEdge hk (show Leads net _ _ .failure from hempty)
    simp only [hempty, if_true, Run.bind_ok has]
    exact ⟨as, .failure, rfl, hext, hempty⟩
  · obtain ⟨as, m, has, hext, hm⟩ := h.addState hp hs ht (u ++ [c])
    have hne : (after net 0 (u ++ [c])).configs.isEmpty = false := by simpa using hempty
    have hleads : Leads net (as.getD 0 {}) (u ++ [c]) (.state m) := ⟨hm, hne⟩
    obtain ⟨bs, hbs, hext'⟩ := (h.extend hext).addEdge (hext.known hk) hleads
    simp only [hempty, Bool.false_eq_true, if_false, Run.bind_ok has, Run.bind_ok hbs]
    exact ⟨bs, .state m, rfl, hext.trans hext', hext'.known hm, hne⟩

theorem step (h : Ready net l) {s : CharStream} (hi : l.input = some s) {n : Nat} {u : List Char}
    (hk : Known net (l.automata.getD 0 {}) n u) (c : Char) :
    ∃ as target, Lexer.step 0 n c.toNat l = .ok target (grown l as) ∧
      Extends net l.automata as ∧ Leads net (as.getD 0 {}) (u ++ [c]) target := by
  obtain ⟨st, hst, hc, _, hedge⟩ := h.stateAt hk
  simp only [Lexer.step, Run.bind_ok hst]
  cases hknown : (if (c.toNat : Int) < 0 ∨ (c.toNat : Int) > Lexer.maxEdge then none
    else st.edgeAt (c.toNat : Int).toNat) with
  | some target =>
    simp only [Run.bind_ok (h.note _)]
    refine ⟨l.automata, target, rfl, h.extends_self, hedge c target ?_⟩
    split at hknown
    · contradiction
    · simpa using hknown
  | none =>
    rw [hc]
    exact h.exploreStep hp hs ht hi hk c

omit hs ht in
theorem step_eof (h : Ready net l) {s : CharStream} (hi : l.input = some s) {n : Nat}
    {u : List Char} (hk : Known net (l.automata.getD 0 {}) n u) :
    Lexer.step 0 n Symbol.eof l = .ok .failure l := by
  obtain ⟨st, hst, hc, _⟩ := h.stateAt hk
  obtain ⟨env, henv, hsilent⟩ := h.surroundings hi true true
  have hset := explore_advance (l := l) hp hsilent u Symbol.eof
  rw [advanceSet_eof hp] at hset
  have heof : Symbol.eof < 0 ∨ Symbol.eof > Lexer.maxEdge := by decide
  have hedge : Lexer.addEdge 0 n Symbol.eof .failure l = .ok ⟨⟩ l := by
    simp [Lexer.addEdge, heof]
  simp only [Lexer.step, Run.bind_ok hst, heof, if_true, hc, decide_true, Run.bind_ok henv,
    Run.bind_ok hset]
  simp [Run.map_apply, hedge]

end Stepping

end Ready

end Lexing

end Throbac
