import Throbac.Proofs.Lexing.Step

/-!
# Scanning

A scan reads as long as some rule can be extended and remembers the last place where one matched. It
thus finds the longest match, or that there is none, and where the reading stopped. On the way it
counts lines and columns. What the cache holds has no part in it.
-/
namespace Throbac

namespace Lexing

/-- The line of a place in a text: one more than the line ends before it. -/
def lineAt (src : List Char) (i : Nat) : Int := 1 + ((src.take i).count '\n' : Nat)

/-- The column of a place in a text: the characters since the last line end. -/
def columnAt (src : List Char) (i : Nat) : Int :=
  (((src.take i).reverse.takeWhile (· ≠ '\n')).length : Nat)

theorem lineAt_succ {src : List Char} {i : Nat} {c : Char} (h : src[i]? = some c) :
    lineAt src (i + 1) = if c = '\n' then lineAt src i + 1 else lineAt src i := by
  rw [lineAt, lineAt, List.take_add_one, h, Option.toList_some, List.count_append,
    List.count_singleton]
  split
  · simp_all
    omega
  · simp_all

theorem columnAt_succ {src : List Char} {i : Nat} {c : Char} (h : src[i]? = some c) :
    columnAt src (i + 1) = if c = '\n' then 0 else columnAt src i + 1 := by
  rw [columnAt, columnAt, List.take_add_one, h, Option.toList_some, List.reverse_append]
  split <;> simp_all

def moved (l : Lexer) (src : List Char) (i : Nat) : Lexer :=
  { l with input := some ⟨src.toArray, i⟩, line := lineAt src i, column := columnAt src i }

/-- The lexer stands at a place of a text. -/
structure Stands (src : List Char) (i : Nat) (l : Lexer) : Prop where
  input : l.input = some ⟨src.toArray, i⟩
  line : l.line = lineAt src i
  column : l.column = columnAt src i

variable {net : Network} {l : Lexer} {src : List Char} {i : Nat}

theorem stands_moved (l : Lexer) (src : List Char) (i : Nat) : Stands src i (moved l src i) :=
  ⟨rfl, rfl, rfl⟩

namespace Stands

theorem moved_eq (h : Stands src i l) : moved l src i = l := by
  rw [moved, ← h.input, ← h.line, ← h.column]

theorem theInput (h : Stands src i l) : Lexer.theInput l = .ok ⟨src.toArray, i⟩ l := by
  simp [Lexer.theInput, h.input]

end Stands

theorem next_char {c : Char} (h : src[i]? = some c) :
    (⟨src.toArray, i⟩ : CharStream).next = (c.toNat : Int) := by
  have h0 : ¬ ((i : Int) < 0) := by omega
  simp [CharStream.next, CharStream.symbolAt, h0, h]

theorem next_eof (h : src.length ≤ i) : (⟨src.toArray, i⟩ : CharStream).next = Symbol.eof := by
  have h0 : ¬ ((i : Int) < 0) := by omega
  simp [CharStream.next, CharStream.symbolAt, h0, h]

theorem toNat_ne_eof (c : Char) : (c.toNat : Int) ≠ Symbol.eof := by
  simp only [Symbol.eof]
  omega

/-- The lexer with one more character of its text read. -/
def stepped (s : CharStream) (l : Lexer) : Lexer :=
  { l with
    input := some { s with index := s.index + 1 }
    line := if s.next = ('\n'.toNat : Int) then l.line + 1 else l.line
    column := if s.next = ('\n'.toNat : Int) then 0 else l.column + 1 }

theorem next_cases (s : CharStream) :
    s.next = Symbol.eof ∨ ∃ c : Char, s.next = (c.toNat : Int) ∧ s.index < s.size := by
  unfold CharStream.next CharStream.symbolAt
  split
  · exact .inl rfl
  · split
    · rename_i c hc
      have hlt := (Array.getElem?_eq_some_iff.1 hc).1
      refine .inr ⟨c, rfl, ?_⟩
      simp only [CharStream.size]
      omega
    · exact .inl rfl

theorem consume_eq {s : CharStream} (hi : l.input = some s) (hs : s.index < s.size) :
    Lexer.consume l = .ok ⟨⟩ (stepped s l) := by
  have hinput : Lexer.theInput l = .ok s l := by simp [Lexer.theInput, hi]
  have hcons : s.consume = .ok { s with index := s.index + 1 } := by
    unfold CharStream.consume
    rw [if_neg (by omega)]
  simp only [Lexer.consume, Run.bind_ok hinput, Run.modify_bind, hcons, Run.ofExcept_ok_bind,
    Lexer.modifyInput, Run.modify_apply, stepped]
  split <;> simp [hi]

theorem Stands.stepped_eq (h : Stands src i l) {c : Char} (hc : src[i]? = some c) :
    stepped ⟨src.toArray, i⟩ l = moved l src (i + 1) := by
  have hnl : ((c.toNat : Int) = ('\n'.toNat : Int)) ↔ c = '\n' := by
    rw [Int.ofNat_inj, Char.toNat_inj]
  simp only [stepped, next_char hc, hnl, moved, lineAt_succ hc, columnAt_succ hc, h.line, h.column]
  rfl

theorem Stands.consume (h : Stands src i l) {c : Char} (hc : src[i]? = some c) :
    Lexer.consume l = .ok ⟨⟩ (moved l src (i + 1)) := by
  have hlt : i < src.length := (List.getElem?_eq_some_iff.1 hc).1
  rw [consume_eq h.input (by simpa [CharStream.size] using hlt), h.stepped_eq hc]

def Accepts (rs : List LexRule) (u : List Char) : Prop := ∃ r ∈ rs, r.pattern.Matches u

/-- Whether some rule matches a text or a continuation of it. -/
def CanExtend (rs : List LexRule) (u : List Char) : Prop := ∃ r ∈ rs, ∃ v, r.pattern.Matches (u ++ v)

theorem Accepts.canExtend {rs : List LexRule} {u v : List Char} (h : Accepts rs (u ++ v)) :
    CanExtend rs u := by
  obtain ⟨r, hr, hm⟩ := h
  exact ⟨r, hr, v, hm⟩

/-- A place where some rule matched, with the text read up to it. -/
structure Mark where
  index : Int
  line : Int
  column : Int
  text : List Char

open Classical in
/-- The mark of a scan that has come to a place with the text read up to it. -/
noncomputable def marked (rs : List LexRule) (u : List Char) (s : CharStream) (l : Lexer) (m : Option Mark) :
    Option Mark :=
  if Accepts rs u then some ⟨s.index, l.line, l.column, u⟩ else m

/-- A scan from a place to where no rule can be extended, with the marks before and after. -/
inductive Scans (rs : List LexRule) :
    CharStream → Lexer → List Char → Option Mark → CharStream → Lexer → Option Mark → Prop
  | stop {s : CharStream} {l : Lexer} {u : List Char} {m : Option Mark} :
    (∀ c : Char, s.next = (c.toNat : Int) → ¬ CanExtend rs (u ++ [c])) → Scans rs s l u m s l m
  | step {s s' : CharStream} {l l' : Lexer} {u : List Char} {m m' : Option Mark} (c : Char) :
    s.next = (c.toNat : Int) → CanExtend rs (u ++ [c]) →
    Scans rs { s with index := s.index + 1 } (stepped s l) (u ++ [c])
      (marked rs (u ++ [c]) { s with index := s.index + 1 } (stepped s l) m) s' l' m' →
    Scans rs s l u m s' l' m'

/-- The last match that a scan remembers is the marked one, if any. -/
inductive Recalls (net : Network) (rs : List LexRule) (a : Automaton LexConfigs) :
    Option Mark → Option Lexer.Accepted → Prop
  | none : Recalls net rs a .none .none
  | some {m : Mark} {n : Nat} : Accepts rs m.text → Known net a n m.text →
    Recalls net rs a (.some m) (.some ⟨m.index, m.line, m.column, n⟩)

/-- A lexer that keeps no trace and stands in a text. -/
structure Reading (net : Network) (s : CharStream) (l : Lexer) : Prop where
  network : l.spec.network = net
  traced : l.traced = false
  input : l.input = some s

/-- Automata of which the first is a cache of the network. -/
structure Serves (net : Network) (as : Array (Automaton LexConfigs)) : Prop where
  size : 0 < as.size
  cached : Cached net (as.getD 0 {})

variable {rs : List LexRule} {s : CharStream} {as bs : Array (Automaton LexConfigs)} {m : Option Mark}
  {acc : Option Lexer.Accepted}

theorem Recalls.mono {a b : Automaton LexConfigs} (h : Recalls net rs a m acc) (hg : Grows net a b) :
    Recalls net rs b m acc := by
  cases h with
  | none => exact .none
  | some hacc hk => exact .some hacc (hg.known _ _ hk)

theorem Ready.serves (h : Ready net l) : Serves net l.automata := ⟨h.automata, h.cached⟩

theorem Serves.extend (h : Serves net as) (he : Extends net as bs) : Serves net bs :=
  ⟨by rw [he.size]; exact h.size, he.grows.cached⟩

namespace Reading

theorem ready (h : Reading net s l) (ha : Serves net as) : Ready net (grown l as) :=
  ⟨h.network, h.traced, ha.size, ha.cached⟩

theorem theInput (h : Reading net s l) : Lexer.theInput (grown l as) = .ok s (grown l as) := by
  simp [Lexer.theInput, grown, h.input]

theorem stepped (h : Reading net s l) :
    Reading net { s with index := s.index + 1 } (stepped s l) :=
  ⟨h.network, h.traced, rfl⟩

end Reading

section Scanning

variable {rank : Nat → Nat} (hp : Plain net rank) (hs : spellsRules net net.state 0 rs = true)
  (ht : net.tokenTypes.isSome = true)
include hp hs ht

theorem accepting_iff {u : List Char} {st : AutoState LexConfigs}
    (hv : Lexer.verdict net (after net 0 u) = .ok { st with edges := none }) :
    st.accepting = true ↔ Accepts rs u := by
  rcases first_or_none rs u with ⟨before, r, after', hrs, hr, hb⟩ | hu
  · rw [verdict_of_first hp hs ht hrs hr hb] at hv
    have hacc := congrArg AutoState.accepting (Except.ok.inj hv)
    exact iff_of_true hacc.symm ⟨r, by simp [hrs], hr⟩
  · rw [verdict_of_none hp hs hu] at hv
    have hacc := congrArg AutoState.accepting (Except.ok.inj hv)
    refine iff_of_false ?_ fun ⟨r, hr, hm⟩ => hu r hr hm
    simp [← show false = st.accepting from hacc]

theorem capture_eq {n : Nat} {u : List Char} (h : Reading net s l) (ha : Serves net as)
    (hk : Known net (as.getD 0 {}) n u) (hm : Recalls net rs (as.getD 0 {}) m acc) :
    ∃ acc', Lexer.capture 0 n acc (grown l as) = .ok acc' (grown l as) ∧
      Recalls net rs (as.getD 0 {}) (marked rs u s l m) acc' := by
  obtain ⟨st, hstate, _, hv, _⟩ := (h.ready ha).stateAt hk
  have hiff := accepting_iff hp hs ht hv
  simp only [Lexer.capture, Run.bind_ok hstate, marked]
  by_cases hacc : Accepts rs u
  · simp only [hiff.2 hacc, hacc, if_true, Run.get_bind, Run.bind_ok h.theInput]
    exact ⟨_, rfl, .some hacc hk⟩
  · simp only [hiff, hacc, if_false]
    exact ⟨acc, rfl, hm⟩

theorem Reading.step {n : Nat} {u : List Char} (h : Reading net s l) (ha : Serves net as)
    (hk : Known net (as.getD 0 {}) n u) (c : Char) :
    ∃ bs target, Lexer.step 0 n c.toNat (grown l as) = .ok target (grown l bs) ∧
      Extends net as bs ∧ Leads net (bs.getD 0 {}) (u ++ [c]) target :=
  (h.ready ha).step hp hs ht h.input hk c

/-- A scan goes the same way whatever the cache holds. -/
theorem scan_eq (fuel : Nat) (h : Reading net s l) (u : List Char) (m : Option Mark)
    (hfuel : ((s.size : Int) - s.index).toNat < fuel) :
    ∃ s' l' m', Scans rs s l u m s' l' m' ∧ Reading net s' l' ∧ ∀ as n acc, Serves net as →
      Known net (as.getD 0 {}) n u → Recalls net rs (as.getD 0 {}) m acc →
      ∃ bs acc', Lexer.scan 0 fuel n acc (grown l as) = .ok (acc', s'.next) (grown l' bs) ∧
        Extends net as bs ∧ Recalls net rs (bs.getD 0 {}) m' acc' := by
  induction fuel generalizing s l u m with
  | zero => omega
  | succ fuel ih =>
    rcases next_cases s with heof | ⟨c, hc, hlt⟩
    · refine ⟨s, l, m, .stop fun c hc => absurd (hc.symm.trans heof) (toNat_ne_eof c), h,
        fun as n acc ha hk hm => ⟨as, acc, ?_, (h.ready ha).extends_self, hm⟩⟩
      simp only [Lexer.scan, Run.bind_ok h.theInput, Run.get_bind, (h.ready ha).traced,
        Bool.false_eq_true, if_false, heof, Run.bind_ok ((h.ready ha).step_eof hp h.input hk)]
      rfl
    by_cases hcan : CanExtend rs (u ++ [c])
    · obtain ⟨s', l', m', hscans, hread, hscan⟩ := ih h.stepped (u ++ [c])
        (marked rs (u ++ [c]) { s with index := s.index + 1 } (stepped s l) m)
        (by simp only [CharStream.size] at *; omega)
      refine ⟨s', l', m', .step c hc hcan hscans, hread, fun as n acc ha hk hm => ?_⟩
      obtain ⟨bs, target, hstep, hext, hlead⟩ := h.step hp hs ht ha hk c
      simp only [Lexer.scan, Run.bind_ok h.theInput, Run.get_bind, (h.ready ha).traced,
        Bool.false_eq_true, if_false, hc, Run.bind_ok hstep]
      cases target with
      | failure => exact absurd hcan ((after_isEmpty_iff hp hs _).1 hlead)
      | state k =>
        have hb := ha.extend hext
        obtain ⟨st, hstate, -⟩ := (h.stepped.ready hb).stateAt hlead.1
        obtain ⟨acc₁, hcap, hm₁⟩ := capture_eq hp hs ht h.stepped hb hlead.1 (hm.mono hext.grows)
        obtain ⟨cs, acc', hscan', hext', hm'⟩ := hscan bs k acc₁ hb hlead.1 hm₁
        refine ⟨cs, acc', ?_, hext.trans hext', hm'⟩
        simp only [ne_eq, toNat_ne_eof, not_false_eq_true, if_true, and_false, if_false,
          Run.bind_ok (consume_eq (l := grown l bs) h.input hlt)]
        exact (Run.bind_ok hstate).trans ((Run.bind_ok hcap).trans hscan')
    · have hstop : ∀ d : Char, s.next = (d.toNat : Int) → ¬ CanExtend rs (u ++ [d]) := by
        intro d hd
        rw [← Char.toNat_inj.1 (Int.ofNat_inj.1 (hc.symm.trans hd))]
        exact hcan
      refine ⟨s, l, m, .stop hstop, h, fun as n acc ha hk hm => ?_⟩
      obtain ⟨bs, target, hstep, hext, hlead⟩ := h.step hp hs ht ha hk c
      refine ⟨bs, acc, ?_, hext, hm.mono hext.grows⟩
      simp only [Lexer.scan, Run.bind_ok h.theInput, Run.get_bind, (h.ready ha).traced,
        Bool.false_eq_true, if_false, hc, Run.bind_ok hstep]
      cases target with
      | failure => rfl
      | state k =>
        have hempty := (after_isEmpty_iff hp hs _).2 hcan
        simp [hlead.2] at hempty

end Scanning

/-- What a scan that began at `start` marks of the first `k` characters of the rest: the last of them
behind which some rule matched. -/
inductive Latest (rs : List LexRule) (src : List Char) (start k : Nat) : Option Mark → Prop
  | none : (∀ i ≤ k, ¬ Accepts rs ((src.drop start).take i)) → Latest rs src start k .none
  | some {i : Nat} : i ≤ k → Accepts rs ((src.drop start).take i) →
    (∀ j, i < j → j ≤ k → ¬ Accepts rs ((src.drop start).take j)) →
    Latest rs src start k (.some ⟨(start + i : Nat), lineAt src (start + i), columnAt src (start + i),
      (src.drop start).take i⟩)

theorem Latest.marked {start k : Nat} (hst : Stands src (start + k) l)
    (h : ¬ Accepts rs ((src.drop start).take k) → Latest rs src start k m) :
    Latest rs src start k (marked rs ((src.drop start).take k) ⟨src.toArray, (start + k : Nat)⟩ l m) := by
  unfold Lexing.marked
  split
  · next hacc =>
    rw [hst.line, hst.column]
    exact .some (Nat.le_refl k) hacc fun j h1 h2 => by omega
  · next hacc => exact h hacc

theorem Latest.succ {start k : Nat} (h : Latest rs src start k m)
    (hn : ¬ Accepts rs ((src.drop start).take (k + 1))) : Latest rs src start (k + 1) m := by
  have hsucc : ∀ i, i ≤ k + 1 → i ≤ k ∨ i = k + 1 := fun i hi => by omega
  cases h with
  | none h =>
    refine .none fun i hi => ?_
    rcases hsucc i hi with hi | rfl
    · exact h i hi
    · exact hn
  | some hi hacc hlast =>
    refine .some (by omega) hacc fun j h1 h2 => ?_
    rcases hsucc j h2 with h2 | rfl
    · exact hlast j h1 h2
    · exact hn

/-- What a scan from the `k`-th character behind its start comes to: it stops at the `k'`-th, the last
one up to which some rule can be extended. -/
structure Scanned (rs : List LexRule) (src : List Char) (start k k' : Nat) (m : Option Mark) : Prop where
  le : start + k' ≤ src.length
  latest : Latest rs src start k' m
  extends' : ∀ i, k < i → i ≤ k' → CanExtend rs ((src.drop start).take i)
  stops : start + k' = src.length ∨ ¬ CanExtend rs ((src.drop start).take (k' + 1))

theorem Scans.scanned {s' : CharStream} {l' : Lexer} {u : List Char} {m' : Option Mark} {start k : Nat}
    (h : Scans rs s l u m s' l' m') (hs : s = ⟨src.toArray, (start + k : Nat)⟩)
    (hst : Stands src (start + k) l) (hle : start + k ≤ src.length) (hu : u = (src.drop start).take k)
    (hl : Latest rs src start k m) :
    ∃ k', s' = ⟨src.toArray, (start + k' : Nat)⟩ ∧ l' = moved l src (start + k') ∧
      Scanned rs src start k k' m' := by
  have htake : ∀ {k c}, src[start + k]? = some c →
      (src.drop start).take (k + 1) = (src.drop start).take k ++ [c] := by
    intro k c hc
    rw [List.take_add_one, List.getElem?_drop, hc]
    rfl
  induction h generalizing k with
  | stop hstop =>
    refine ⟨k, hs, hst.moved_eq.symm, hle, hl, fun i h1 h2 => by omega, ?_⟩
    cases hc : src[start + k]? with
    | none => exact .inl (Nat.le_antisymm hle (List.getElem?_eq_none_iff.1 hc))
    | some c =>
      rw [htake hc, ← hu]
      exact .inr (hstop c (hs ▸ next_char hc))
  | @step _ _ l _ _ _ _ c hnext hcan _ ih =>
    subst hs hu
    have hc : src[start + k]? = some c := by
      cases hd : src[start + k]? with
      | none => exact absurd (hnext.symm.trans (next_eof (List.getElem?_eq_none_iff.1 hd))) (toNat_ne_eof c)
      | some d => rw [Char.toNat_inj.1 (Int.ofNat_inj.1 (hnext.symm.trans (next_char hd)))]
    have hlt : start + k < src.length := (List.getElem?_eq_some_iff.1 hc).1
    rw [← htake hc] at hcan ih
    rw [hst.stepped_eq hc] at ih
    have hst' := stands_moved l src (start + (k + 1))
    obtain ⟨k', rfl, rfl, hres⟩ := ih (k := k + 1) rfl hst' (by omega) rfl (.marked hst' hl.succ)
    refine ⟨k', rfl, rfl, hres.le, hres.latest, fun i h1 h2 => ?_, hres.stops⟩
    by_cases hi : i = k + 1
    · exact hi ▸ hcan
    · exact hres.extends' i (by omega) h2

end Lexing

end Throbac
