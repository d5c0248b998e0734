import Mathlib.Data.List.Induction
import Throbac.Proofs.Run
import Throbac.Proofs.Lexing.Matching

/-!
# The automaton of a lexer is a cache

Each state of the automaton a lexer grows stands for the set of configurations behind some text; its
verdict is that of the set, and its edges lead where reading leads. Whatever is cached, a step
therefore gives the state of the set behind one character more, or fails exactly if that set is
empty.
-/
namespace Throbac

namespace AutoState

theorem edgeAt_setEdge {C : Type} {s : AutoState C} {n i j : Nat} {t x : Target}
    (h : (s.setEdge n i t).edgeAt j = some x) : (j = i ∧ x = t) ∨ s.edgeAt j = some x := by
  simp only [edgeAt, setEdge, Array.set!_eq_setIfInBounds, Array.getD_eq_getD_getElem?,
    Array.getElem?_setIfInBounds] at h
  split at h
  · rename_i hij
    split at h
    · exact .inl ⟨hij.symm, by simpa using h.symm⟩
    · simp at h
  · right
    cases he : s.edges with
    | none => simp [he, Array.getElem?_replicate] at h; split at h <;> simp at h
    | some es => simpa [edgeAt, he, Array.getD_eq_getD_getElem?] using h

end AutoState

namespace Lexing

def Known (net : Network) (a : Automaton LexConfigs) (n : Nat) (u : List Char) : Prop :=
  ∃ st, a.states[n]? = some st ∧ st.configs = after net 0 u

/-- What an edge for the last character of the text may say. -/
def Leads (net : Network) (a : Automaton LexConfigs) (u : List Char) : Target → Prop
  | .state m => Known net a m u ∧ (after net 0 u).configs.isEmpty = false
  | .failure => (after net 0 u).configs.isEmpty = true

structure Cached (net : Network) (a : Automaton LexConfigs) : Prop where
  reached : ∀ (n : Nat) st, a.states[n]? = some st → ∃ u, st.configs = after net 0 u
  verdicts : ∀ (n : Nat) st, a.states[n]? = some st →
    Lexer.verdict net st.configs = .ok { st with edges := none }
  edges : ∀ (n : Nat) st, a.states[n]? = some st → ∀ u, st.configs = after net 0 u →
    ∀ (c : Char) target, st.edgeAt c.toNat = some target → Leads net a (u ++ [c]) target
  start : ∀ n, a.start = some n → Known net a n []

/-- A larger cache that still knows what the smaller one knew. -/
structure Grows (net : Network) (a b : Automaton LexConfigs) : Prop where
  cached : Cached net b
  known : ∀ n u, Known net a n u → Known net b n u

variable {net : Network} {a b c : Automaton LexConfigs}

theorem Grows.refl (h : Cached net a) : Grows net a a := ⟨h, fun _ _ => id⟩

theorem Grows.trans (h : Grows net a b) (k : Grows net b c) : Grows net a c :=
  ⟨k.cached, fun n u hk => k.known n u (h.known n u hk)⟩

theorem Leads.mono (h : ∀ n u, Known net a n u → Known net b n u) {u : List Char} {t : Target}
    (hl : Leads net a u t) : Leads net b u t := by
  cases t with
  | state m => exact ⟨h m u hl.1, hl.2⟩
  | failure => exact hl

theorem cached_ofDecision (n : Nat) (i : Int) (p : Bool) : Cached net (.ofDecision n i p) := by
  constructor <;> simp [Automaton.ofDecision]

theorem Cached.push (h : Cached net a) {u : List Char} {st : AutoState LexConfigs}
    (hc : st.configs = after net 0 u) (hv : Lexer.verdict net (after net 0 u) = .ok st)
    (he : st.edges = none) : Grows net a { a with states := a.states.push st } ∧
      Known net { a with states := a.states.push st } a.states.size u := by
  have hknown : ∀ n w, Known net a n w → Known net { a with states := a.states.push st } n w := by
    rintro n w ⟨s, hs, hw⟩
    obtain ⟨hn, _⟩ := Array.getElem?_eq_some_iff.1 hs
    refine ⟨s, ?_, hw⟩
    rw [Array.getElem?_push, if_neg (by omega), hs]
  have hsplit : ∀ (n : Nat) s, (a.states.push st)[n]? = some s → a.states[n]? = some s ∨ s = st := by
    intro n s hs
    rw [Array.getElem?_push] at hs
    split at hs
    · exact .inr (Option.some.inj hs).symm
    · exact .inl hs
  have hst : { st with edges := none } = st := by rw [← he]
  refine ⟨⟨⟨?_, ?_, ?_, fun n hn => hknown n [] (h.start n hn)⟩, hknown⟩, st, by simp, hc⟩
  · intro n s hs
    rcases hsplit n s hs with hs | rfl
    · exact h.reached n s hs
    · exact ⟨u, hc⟩
  · intro n s hs
    rcases hsplit n s hs with hs | rfl
    · exact h.verdicts n s hs
    · rw [hst, hc, hv]
  · intro n s hs w hw c target ht
    rcases hsplit n s hs with hs | rfl
    · exact (h.edges n s hs w hw c target ht).mono hknown
    · simp [AutoState.edgeAt, he] at ht

theorem Cached.setStart (h : Cached net a) {n : Nat} (hk : Known net a n []) :
    Grows net a { a with start := some n } :=
  ⟨⟨h.reached, h.verdicts, fun m s hs u hu c t ht => (h.edges m s hs u hu c t ht).mono fun _ _ => id,
    fun _ hm => Option.some.inj hm ▸ hk⟩, fun _ _ => id⟩

theorem Cached.setEdge (h : Cached net a) {n : Nat} {u : List Char} {c : Char} {target : Target}
    (hk : Known net a n u) (hl : Leads net a (u ++ [c]) target) :
    Grows net a (a.modify n (·.setEdge 128 c.toNat target)) := by
  have hget : ∀ (m : Nat) s, (a.modify n (·.setEdge 128 c.toNat target)).states[m]? = some s →
      ∃ s₀, a.states[m]? = some s₀ ∧ s.configs = s₀.configs ∧
        { s with edges := none } = { s₀ with edges := none } ∧
        (s = s₀ ∨ m = n ∧ s = s₀.setEdge 128 c.toNat target) := by
    intro m s hs
    simp only [Automaton.modify, Array.getElem?_modify] at hs
    split at hs
    · obtain ⟨s₀, hs₀, rfl⟩ := Option.map_eq_some_iff.1 hs
      exact ⟨s₀, hs₀, rfl, rfl, .inr ⟨by omega, rfl⟩⟩
    · exact ⟨s, hs, rfl, rfl, .inl rfl⟩
  have hknown : ∀ m w, Known net a m w →
      Known net (a.modify n (·.setEdge 128 c.toNat target)) m w := by
    rintro m w ⟨s, hs, hw⟩
    simp only [Known, Automaton.modify, Array.getElem?_modify]
    split
    · exact ⟨s.setEdge 128 c.toNat target, by simp [hs], hw⟩
    · exact ⟨s, hs, hw⟩
  refine ⟨⟨?_, ?_, ?_, fun m hm => hknown m [] (h.start m hm)⟩, hknown⟩
  · intro m s hs
    obtain ⟨s₀, hs₀, hc, _⟩ := hget m s hs
    rw [hc]
    exact h.reached m s₀ hs₀
  · intro m s hs
    obtain ⟨s₀, hs₀, hc, he, _⟩ := hget m s hs
    rw [he, hc]
    exact h.verdicts m s₀ hs₀
  · intro m s hs w hw d x hx
    obtain ⟨s₀, hs₀, hc, _, rfl | ⟨rfl, rfl⟩⟩ := hget m s hs
    · exact (h.edges m s hs₀ w hw d x hx).mono hknown
    · rcases AutoState.edgeAt_setEdge hx with ⟨hd, rfl⟩ | hx
      · -- the set behind the text decides, not the text itself
        obtain ⟨s₁, hs₁, hu⟩ := hk
        obtain rfl : s₁ = s₀ := Option.some.inj (hs₁.symm.trans hs₀)
        have hset : after net 0 (w ++ [d]) = after net 0 (u ++ [c]) := by
          rw [after_snoc, after_snoc, ← hw, ← hu, hd]
          rfl
        have := hl.mono hknown
        unfold Leads Known at this ⊢
        rwa [hset]
      · exact (h.edges m s₀ hs₀ w hw d x hx).mono hknown

theorem after_hasGuard (u : List Char) : (after net 0 u).hasGuard = false := by
  induction u using List.reverseRecOn with
  | nil => exact LexConfigs.addAll_hasGuard _ _
  | append_singleton u a _ =>
    rw [after_snoc]
    exact LexConfigs.addAll_hasGuard _ _

theorem advanceSet_eof {rank : Nat → Nat} (hp : Plain net rank) (s : LexConfigs) :
    advanceSet net s Symbol.eof = {} := by
  have hnone : ∀ c, reads net Symbol.eof c = [] := by
    intro c
    simp only [reads, List.map_eq_nil_iff, List.filter_eq_nil_iff]
    intro e he
    have hl := hp.labels c.state e (Array.mem_toList_iff.1 he)
    cases hlabel : e.label with
    | epsilon | call | action | predicate | precedence => simp [Label.reads]
    | _ => simpa [plainLabel, hlabel] using hl
  have hflat : (s.configs.toList.flatMap fun c => (reads net Symbol.eof c).flatMap fun d =>
      reach net (bound net d) d) = [] := by
    simp [List.flatMap_eq_nil_iff, hnone]
  rw [advanceSet, hflat]
  rfl

theorem first_or_none (rs : List LexRule) (u : List Char) :
    (∃ before r after', rs = before ++ r :: after' ∧ r.pattern.Matches u ∧
      ∀ s ∈ before, ¬ s.pattern.Matches u) ∨ ∀ r ∈ rs, ¬ r.pattern.Matches u := by
  induction rs with
  | nil => exact .inr (by simp)
  | cons s rs ih =>
    by_cases hs : s.pattern.Matches u
    · exact .inl ⟨[], s, rs, rfl, hs, by simp⟩
    · rcases ih with ⟨before, r, after', rfl, hr, hb⟩ | h
      · exact .inl ⟨s :: before, r, after', rfl, hr, by simpa [hs] using hb⟩
      · exact .inr (by simpa [hs] using h)

section Verdicts

variable {rank : Nat → Nat} {rs : List LexRule} (hp : Plain net rank)
  (hs : spellsRules net net.state 0 rs = true) (ht : net.tokenTypes.isSome = true)
include hp hs ht

theorem verdict_of_first {u : List Char} {before after' : List LexRule} {r : LexRule}
    (hrs : rs = before ++ r :: after') (hr : r.pattern.Matches u)
    (hbefore : ∀ s ∈ before, ¬ s.pattern.Matches u) :
    Lexer.verdict net (after net 0 u) = .ok
      { configs := after net 0 u, accepting := true, actions := r.fate.actions
        prediction := r.symbol } := by
  obtain ⟨f, hf, ha, htype⟩ := find_after_some hp hs hrs hr hbefore
  obtain ⟨types, htypes⟩ := Option.isSome_iff_exists.1 ht
  rw [htypes] at htype
  simp only [Lexer.verdict, hf, htypes]
  simp only [Option.getD_some] at htype
  simp [htype, ha, bind, Except.bind, pure, Except.pure]

omit ht in
theorem verdict_of_none {u : List Char} (hu : ∀ r ∈ rs, ¬ r.pattern.Matches u) :
    Lexer.verdict net (after net 0 u) = .ok { configs := after net 0 u } := by
  simp [Lexer.verdict, find_after_none hp hs hu]

theorem exists_verdict (u : List Char) :
    ∃ st, Lexer.verdict net (after net 0 u) = .ok st ∧ st.configs = after net 0 u ∧
      st.edges = none := by
  rcases first_or_none rs u with ⟨before, r, after', hrs, hr, hb⟩ | hu
  · exact ⟨_, verdict_of_first hp hs ht hrs hr hb, rfl, rfl⟩
  · exact ⟨_, verdict_of_none hp hs hu, rfl, rfl⟩

end Verdicts

end Lexing

end Throbac
