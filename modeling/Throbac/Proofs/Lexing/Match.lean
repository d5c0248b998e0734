import Throbac.Proofs.Lexing.Scan

/-!
# One match of a lexer

From a place of the text a lexer takes the longest match, by the first rule that has it, and does
what the rule's fate asks; or it stands behind the last character up to which some rule could be
extended, if none matches.
-/
namespace Throbac

/-- What a match of the given fate does to the lexer. -/
def Fate.apply (f : Fate) (l : Lexer) : Lexer :=
  { l with
    channel := if f = .hide then 1 else l.channel
    type := if f = .drop then Lexer.skipType else l.type }

namespace Lexing

variable {net : Network} {l : Lexer} {src : List Char} {i : Nat}

theorem seek_le {j : Nat} (h : i ≤ j) :
    (⟨src.toArray, j⟩ : CharStream).seek i = ⟨src.toArray, i⟩ := by
  simp [CharStream.seek, h]

theorem runActions_eq {s : CharStream} (hi : l.input = some s) (start : Int) {f : Fate}
    {as : ActionList} (hf : f.actions = some as) :
    Lexer.runActions start as l = .ok ⟨⟩ (f.apply l) := by
  have hinput : Lexer.theInput l = .ok s l := by simp [Lexer.theInput, hi]
  have hseek : ∀ l' : Lexer, l'.input = l.input →
      Lexer.modifyInput (·.seek s.index) l' = .ok ⟨⟩ l' := by
    intro l' hl
    have hmap : l'.input.map (·.seek s.index) = l'.input := by
      simp [hl, hi, CharStream.seek]
    simp [Lexer.modifyInput, hmap]
  cases f with
  | keep => cases hf
  | hide =>
    cases hf
    simp only [Lexer.runActions, Run.bind_ok hinput, List.forIn_cons, List.forIn_nil,
      bind_pure_comp]
    exact Run.tryFinally_ok rfl (hseek _ rfl)
  | drop =>
    cases hf
    simp only [Lexer.runActions, Run.bind_ok hinput, List.forIn_cons, List.forIn_nil,
      bind_pure_comp]
    exact Run.tryFinally_ok rfl (hseek _ rfl)

theorem conclude_none {s : CharStream} (hi : l.input = some s) (t : Int) :
    Lexer.conclude 0 none t l =
      .ok (if t = Symbol.eof ∧ s.index = l.matchStart then some Symbol.eof else none) l := by
  have hinput : Lexer.theInput l = .ok s l := by simp [Lexer.theInput, hi]
  simp only [Lexer.conclude, Run.bind_ok hinput, Run.get_bind]
  split <;> rfl

def begun (l : Lexer) (i : Nat) : Lexer := { l with matchMode := 0, matchStart := i }

section Matching

variable {rank : Nat → Nat} {rs : List LexRule} (hp : Plain net rank)
  (hs : spellsRules net net.state 0 rs = true) (ht : net.tokenTypes.isSome = true)
include hp hs ht

/-- The end of a scan with a match: the text goes back to it, and the first rule that matches says
what is done. -/
theorem Ready.conclude {s : CharStream} {u : List Char} {index line column t : Int} {n : Nat} (hr : Ready net l)
    (hinput : l.input = some s) (hk : Known net (l.automata.getD 0 {}) n u) {before after' : List LexRule}
    {r : LexRule} (hrs : rs = before ++ r :: after') (hmatch : r.pattern.Matches u)
    (hbefore : ∀ s ∈ before, ¬ s.pattern.Matches u) :
    Lexer.conclude 0 (some ⟨index, line, column, n⟩) t l =
      .ok (some r.symbol) (r.fate.apply { l with input := some (s.seek index), line, column }) := by
  obtain ⟨st, hstate, _, hv, _⟩ := hr.stateAt hk
  rw [verdict_of_first hp hs ht hrs hmatch hbefore] at hv
  have hacts : r.fate.actions = st.actions := congrArg AutoState.actions (Except.ok.inj hv)
  have hpred : r.symbol = st.prediction := congrArg AutoState.prediction (Except.ok.inj hv)
  simp only [Lexer.conclude, Run.bind_ok hstate, Run.bind_ok (hr.note _), Lexer.modifyInput,
    Run.modify_bind, hinput, Option.map_some, ← hacts, ← hpred]
  cases ha : r.fate.actions with
  | none =>
    cases hf : r.fate with
    | keep => rfl
    | hide => simp [hf, Fate.actions] at ha
    | drop => simp [hf, Fate.actions] at ha
  | some as =>
    simp only [Run.get_bind]
    exact Run.bind_ok (runActions_eq rfl _ ha)

/-- A match begins at the start state of the automaton, which is looked up there or added first. -/
theorem Ready.matchIn {s : CharStream} (hmodes : net.modes = #[0]) (hr : Ready net l) (hinput : l.input = some s)
    {P : Option Int → Lexer → Prop}
    (hscan : ∀ as n, Extends net l.automata as → Known net (as.getD 0 {}) n [] → ∃ t l', Lexer.scanFrom 0 n
      (grown { l with matchMode := 0, matchStart := s.index } as) = .ok t l' ∧ l'.traced = false ∧ P t l') :
    ∃ t l', Lexer.matchIn 0 l = .ok t l' ∧ P t l' := by
  have hinput' : Lexer.theInput l = .ok s l := by simp [Lexer.theInput, hinput]
  simp only [Lexer.matchIn, Run.bind_ok hinput', Run.modify_bind]
  generalize hl₀ : ({ l with matchMode := 0, matchStart := s.index } : Lexer) = l₀ at hscan ⊢
  have hr₀ : Ready net l₀ := hl₀ ▸ ⟨hr.network, hr.traced, hr.automata, hr.cached⟩
  have hsame : l₀.automata = l.automata := by rw [← hl₀]
  rw [← hsame] at hscan
  have hauto : Lexer.automatonAt 0 l₀ = .ok 0 l₀ := by
    simp [Lexer.automatonAt, Sequence.resolve?, hr₀.automata]
  simp only [Run.bind_ok hauto, Run.get_bind]
  cases hstart : (l₀.automata.getD 0 {}).start with
  | some n =>
    obtain ⟨t, l', hrun, -, hP⟩ := hscan _ n hr₀.extends_self (hr₀.cached.start n hstart)
    exact ⟨t, l', hrun, hP⟩
  | none =>
    obtain ⟨env, henv, hsilent⟩ := hr₀.surroundings (hl₀ ▸ hinput : l₀.input = some s) false false
    have hset := explore_start (l := l₀) hp hsilent 0
    have hguard : (startSet net 0).hasGuard = false :=
      show (after net 0 []).hasGuard = false from after_hasGuard []
    obtain ⟨as, n, hadd, hext, hn⟩ := hr₀.addState hp hs ht []
    change Lexer.addState 0 (startSet net 0) _ = _ at hadd
    have hr₁ := hr₀.extend hext
    obtain ⟨hext₁, hget⟩ := hr₁.modifyAutomaton (f := fun a => { a with start := some n })
      (hr₁.cached.setStart hn)
    obtain ⟨t, l', hrun, htraced, hP⟩ := hscan _ n (hext.trans hext₁) (hext₁.known hn)
    refine ⟨t, l', ?_, hP⟩
    have hmode : Sequence.arrayAt l₀.spec.network.modes 0 = .ok 0 := by
      rw [hr₀.network, hmodes]
      rfl
    simp only [Lexer.scanNetwork, Run.get_bind, hmode, Run.ofExcept_ok_bind,
      Run.bind_ok (hr₀.note _), Run.bind_ok henv, Run.bind_ok hset, Run.bind_ok hadd,
      hguard, Bool.not_false, if_true, Lexer.modifyAutomaton, Run.modify_bind]
    refine (Run.bind_ok hrun).trans ?_
    simp [htraced]

theorem scanFrom_scans {s : CharStream} (h : Reading net s l) :
    ∃ s' l' m, Scans rs s l [] (marked rs [] s l none) s' l' m ∧ Reading net s' l' ∧
      ∀ as n, Serves net as → Known net (as.getD 0 {}) n [] →
        ∃ bs acc, Lexer.scanFrom 0 n (grown l as) = Lexer.conclude 0 acc s'.next (grown l' bs) ∧
          Extends net as bs ∧ Recalls net rs (bs.getD 0 {}) m acc := by
  have hfuel : ((s.size : Int) - s.index).toNat <
      ((s.size : Int) - s.index).toNat + l.spec.network.states.size + 2 := by omega
  obtain ⟨s', l', m, hscans, hread, hscan⟩ := scan_eq hp hs ht _ h [] (marked rs [] s l none) hfuel
  refine ⟨s', l', m, hscans, hread, fun as n ha hk => ?_⟩
  obtain ⟨acc, hcap, hm⟩ := capture_eq hp hs ht h ha hk .none
  obtain ⟨bs, acc', hrun, hext, hm'⟩ := hscan as n acc ha hk hm
  refine ⟨bs, acc', ?_, hext, hm'⟩
  simp only [Lexer.scanFrom, Run.get_bind, (h.ready ha).traced, Bool.false_eq_true, if_false,
    Run.bind_ok h.theInput, Run.bind_ok hcap]
  exact Run.bind_ok hrun

end Matching

open Lexicon

/-- What a match from a place of the text can come to, and the lexer it leaves. -/
inductive Outcome (src : List Char) (start : Nat) (l : Lexer) : Option Int → Lexer → Prop
  | matched {n : Nat} {r : LexRule} : LongestMatch (src.drop start) n r →
    Outcome src start l (some r.symbol) (r.fate.apply (moved l src (start + n)))
  | ended : start = src.length → Outcome src start l (some Symbol.eof) (moved l src start)
  | stuck {k : Nat} : start + k ≤ src.length →
    Unreadable (src.drop start) (min (k + 1) (src.length - start)) →
    Outcome src start l none (moved l src (start + k))

theorem Outcome.traced {start : Nat} {t : Option Int} {l l' : Lexer} (h : Outcome src start l t l') :
    l'.traced = l.traced := by
  cases h <;> rfl

theorem longestMatch_of_latest {start k m : Nat}
    (hstops : start + k = src.length ∨ ¬ CanExtend rules ((src.drop start).take (k + 1)))
    (hle : start + k ≤ src.length) (hm : m ≤ k)
    (hlast : ∀ m', m < m' → m' ≤ k → ¬ Accepts rules ((src.drop start).take m')) {r : LexRule}
    (hf : FirstMatch ((src.drop start).take m) r) : LongestMatch (src.drop start) m r := by
  refine ⟨by simp; omega, hf, fun m' h1 h2 s hs hmatch => ?_⟩
  by_cases hk : m' ≤ k
  · exact hlast m' h1 hk ⟨s, hs, hmatch⟩
  · rcases hstops with hend | hstop
    · simp only [List.length_drop] at h2
      omega
    · refine hstop (Accepts.canExtend (v := ((src.drop start).drop (k + 1)).take (m' - (k + 1))) ?_)
      rw [← List.take_add, show k + 1 + (m' - (k + 1)) = m' by omega]
      exact ⟨s, hs, hmatch⟩

theorem unreadable_of_latest {start k : Nat} (hlt : start < src.length)
    (hstops : start + k = src.length ∨ ¬ CanExtend rules ((src.drop start).take (k + 1)))
    (hext : ∀ m, 0 < m → m ≤ k → CanExtend rules ((src.drop start).take m))
    (hnone : ∀ m ≤ k, ¬ Accepts rules ((src.drop start).take m)) :
    Unreadable (src.drop start) (min (k + 1) (src.length - start)) := by
  have hlen : (src.drop start).length = src.length - start := List.length_drop
  refine ⟨by omega, by omega, fun m hm s hs hmatch => ?_, fun m hm => ?_, ?_⟩
  · by_cases hk : m ≤ k
    · exact hnone m hk ⟨s, hs, hmatch⟩
    · rcases hstops with hend | hstop
      · omega
      · refine hstop (Accepts.canExtend (v := ((src.drop start).drop (k + 1)).take (m - (k + 1))) ?_)
        rw [← List.take_add, show k + 1 + (m - (k + 1)) = m by omega]
        exact ⟨s, hs, hmatch⟩
  · rcases Nat.eq_zero_or_pos m with rfl | hpos
    · exact viable_nil
    · exact hext m hpos (by omega)
  · rcases hstops with hend | hstop
    · exact .inr (by omega)
    · by_cases hk : k + 1 ≤ src.length - start
      · rw [Nat.min_eq_left hk]
        exact .inl hstop
      · exact .inr (by omega)

section Rules

variable {rank : Nat → Nat} (hp : Plain net rank)
  (hs : spellsRules net net.state 0 rules = true) (ht : net.tokenTypes.isSome = true)
include hp hs ht

theorem scanFrom_eq {start n : Nat} (hr : Ready net l) (hst : Stands src start l)
    (hle : start ≤ src.length) (hms : l.matchStart = start)
    (hk : Known net (l.automata.getD 0 {}) n []) :
    ∃ as t l', Lexer.scanFrom 0 n l = .ok t l' ∧ Extends net l.automata as ∧
      Outcome src start (grown l as) t l' := by
  have hread : Reading net ⟨src.toArray, start⟩ l := ⟨hr.network, hr.traced, hst.input⟩
  obtain ⟨s', l', m, hscans, hread', hscan⟩ := scanFrom_scans hp hs ht hread
  have hnone : ¬ Accepts rules ((src.drop start).take 0) → Latest rules src start 0 none :=
    fun h => .none fun i hi => by obtain rfl := Nat.le_zero.1 hi; exact h
  obtain ⟨k, rfl, rfl, hres⟩ := hscans.scanned (k := 0) rfl hst hle rfl (.marked hst hnone)
  have ha := hr.serves
  obtain ⟨as, acc, hrun, hext, hm⟩ := hscan l.automata n ha hk
  have hr' : Ready net (grown (moved l src (start + k)) as) := hread'.ready (ha.extend hext)
  refine ⟨as, ?_⟩
  rw [show grown l l.automata = l from rfl] at hrun
  simp only [hrun]
  rcases hres.latest with hnone | @⟨i, hi, hacc, hlast⟩
  · cases hm
    have hinput : (grown (moved l src (start + k)) as).input = some ⟨src.toArray, (start + k : Nat)⟩ := rfl
    by_cases hend : src.length ≤ start
    · -- nothing is left of the text
      obtain rfl : k = 0 := by have := hres.le; omega
      refine ⟨_, _, ?_, hext, .ended (by omega)⟩
      rw [conclude_none hinput, if_pos ⟨next_eof hend, hms.symm⟩]
      rfl
    · have hk0 : ¬ ((⟨src.toArray, (start + k : Nat)⟩ : CharStream).next = Symbol.eof ∧
          ((start + k : Nat) : Int) = l.matchStart) := by
        rintro ⟨hnext, hidx⟩
        obtain rfl : k = 0 := by omega
        cases hc : src[start + 0]? with
        | none => exact hend (by simpa using hc)
        | some c => exact toNat_ne_eof c ((next_char hc).symm.trans hnext)
      refine ⟨_, _, ?_, hext, .stuck hres.le
        (unreadable_of_latest (by omega) hres.stops hres.extends' hnone)⟩
      rw [conclude_none hinput]
      exact congrArg (EStateM.Result.ok · _) (if_neg hk0)
  · cases hm with
    | some _ hj =>
      rcases first_or_none rules ((src.drop start).take i) with ⟨before, r, after', hrs, hmatch, hb⟩ | hno
      · refine ⟨_, _, hr'.conclude hp hs ht hread'.input hj hrs hmatch hb, hext, ?_⟩
        rw [seek_le (by omega)]
        exact .matched (longestMatch_of_latest hres.stops hres.le hi hlast ⟨before, after', hrs, hmatch, hb⟩)
      · obtain ⟨r, hrm, hmatch⟩ := hacc
        exact absurd hmatch (hno r hrm)

theorem matchIn_eq {start : Nat} (hmodes : net.modes = #[0]) (hr : Ready net l)
    (hst : Stands src start l) (hle : start ≤ src.length) :
    ∃ as t l', Lexer.matchIn 0 l = .ok t l' ∧ Extends net l.automata as ∧
      Outcome src start (grown (begun l start) as) t l' := by
  suffices h : ∃ t l', Lexer.matchIn 0 l = .ok t l' ∧ ∃ as, Extends net l.automata as ∧
      Outcome src start (grown (begun l start) as) t l' by
    obtain ⟨t, l', hrun, as, hext, hout⟩ := h
    exact ⟨as, t, l', hrun, hext, hout⟩
  refine hr.matchIn hp hs ht hmodes hst.input fun as n hext hk => ?_
  have hr₁ := hr.extend hext
  obtain ⟨bs, t, l', hscan, hext', hout⟩ := scanFrom_eq hp hs ht (l := grown (begun l start) as)
    ⟨hr₁.network, hr₁.traced, hr₁.automata, hr₁.cached⟩ ⟨hst.input, hst.line, hst.column⟩ hle rfl hk
  exact ⟨t, l', hscan, hout.traced.trans hr₁.traced, bs, hext.trans hext', hout⟩

end Rules

end Lexing

end Throbac
