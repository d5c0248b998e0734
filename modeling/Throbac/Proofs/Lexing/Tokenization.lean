import Throbac.Grammar.Rules
import Throbac.Proofs.Lexing.Language
import Throbac.Proofs.Lexing.Tokens

/-!
# The tokens of a program

A lexer of the language cuts every text into the pieces that the lexical rules ask for: the longest
match at each place, the first rule where two match the same, and a stretch of unreadable characters
where none matches. It gives one token for each piece that is not dropped, one report for each
unreadable one, and the end of the text for ever after.

The cut is a relation between a text and its pieces. It is total and leaves no choice, so the lexer is
compared with one list of pieces.
-/
namespace Throbac

namespace Lexicon

theorem FirstMatch.unique {u : List Char} {r s : LexRule} (hr : FirstMatch u r)
    (hs : FirstMatch u s) : r = s := by
  obtain ⟨xs, ys, hxy, hmr, hxs⟩ := hr
  obtain ⟨zs, ws, hzw, hms, hzs⟩ := hs
  rcases List.append_eq_append_iff.mp (hxy.symm.trans hzw) with ⟨as, rfl, has⟩ | ⟨as, rfl, has⟩
  · cases as with
    | nil => exact (List.cons.inj has).1
    | cons a as =>
      obtain ⟨rfl, _⟩ := List.cons.inj has
      exact absurd hmr (hzs r (by simp))
  · cases as with
    | nil => exact (List.cons.inj has).1.symm
    | cons a as =>
      obtain ⟨rfl, _⟩ := List.cons.inj has
      exact absurd hms (hxs s (by simp))

theorem FirstMatch.matches {u : List Char} {r : LexRule} (h : FirstMatch u r) :
    r ∈ rules ∧ r.pattern.Matches u := by
  obtain ⟨xs, ys, hxy, hm, _⟩ := h
  exact ⟨hxy ▸ List.mem_append_right _ List.mem_cons_self, hm⟩

theorem LongestMatch.unique {rest : List Char} {n m : Nat} {r s : LexRule}
    (hr : LongestMatch rest n r) (hs : LongestMatch rest m s) : n = m ∧ r = s := by
  have hnm : n = m := by
    rcases Nat.lt_trichotomy n m with h | h | h
    · exact absurd hs.first.matches.2 (hr.longest m h hs.le s hs.first.matches.1)
    · exact h
    · exact absurd hr.first.matches.2 (hs.longest n h hr.le r hr.first.matches.1)
  subst hnm
  exact ⟨rfl, hr.first.unique hs.first⟩

theorem Unreadable.unique {rest : List Char} {n m : Nat} (hn : Unreadable rest n)
    (hm : Unreadable rest m) : n = m := by
  -- what ends the shorter stretch would be inside the longer one
  have key : ∀ {i j : Nat}, Unreadable rest i → Unreadable rest j → ¬ i < j := by
    intro i j hi hj hij
    rcases hi.ends with h | h
    · exact h (hj.viable i hij)
    · have := hj.le
      omega
  have h₁ := key hn hm
  have h₂ := key hm hn
  omega

theorem LongestMatch.not_unreadable {rest : List Char} {n m : Nat} {r : LexRule}
    (hr : LongestMatch rest n r) : ¬ Unreadable rest m :=
  fun hm => hm.unmatched n hr.le r hr.first.matches.1 hr.first.matches.2

theorem Cuts.unique {start : Nat} {rest : List Char} {ps qs : List Piece} (hp : Cuts start rest ps)
    (hq : Cuts start rest qs) : ps = qs := by
  induction hp generalizing qs with
  | done =>
    cases hq with
    | done => rfl
    | matched h _ => exact absurd h.pos (by have := h.le; simp at this; omega)
    | unreadable h _ => exact absurd h.pos (by have := h.le; simp at this; omega)
  | matched hr _ ih =>
    cases hq with
    | done => exact absurd hr.pos (by have := hr.le; simp at this; omega)
    | matched hs h =>
      obtain ⟨rfl, rfl⟩ := hr.unique hs
      rw [ih h]
    | unreadable hs _ => exact absurd hs hr.not_unreadable
  | unreadable hr _ ih =>
    cases hq with
    | done => exact absurd hr.pos (by have := hr.le; simp at this; omega)
    | matched hs _ => exact absurd hr hs.not_unreadable
    | unreadable hs h =>
      obtain rfl := hr.unique hs
      rw [ih h]

theorem Cuts.flatMap_chars {start : Nat} {rest : List Char} {ps : List Piece}
    (h : Cuts start rest ps) : ps.flatMap Piece.chars = rest := by
  induction h with
  | done => rfl
  | matched _ _ ih | unreadable _ _ ih => rw [List.flatMap_cons, ih, List.take_append_drop]

theorem Cuts.start_eq {start : Nat} {rest : List Char} {before after : List Piece} {p : Piece}
    (h : Cuts start rest (before ++ p :: after)) :
    p.start = start + (before.flatMap Piece.chars).length ∧ p.chars ≠ [] := by
  induction before generalizing start rest with
  | nil =>
    cases h with
    | matched h _ | unreadable h _ =>
      have hpos := h.pos
      have hle := h.le
      refine ⟨by simp, fun hnil => ?_⟩
      have hlen := congrArg List.length hnil
      rw [List.length_take, List.length_nil] at hlen
      omega
  | cons b before ih =>
    cases h with
    | @matched _ n _ _ _ hl h =>
      have := hl.le
      obtain ⟨hs, hne⟩ := ih h
      refine ⟨?_, hne⟩
      simp [hs, List.flatMap_cons]
      omega
    | @unreadable _ n _ _ hl h =>
      have := hl.le
      obtain ⟨hs, hne⟩ := ih h
      refine ⟨?_, hne⟩
      simp [hs, List.flatMap_cons]
      omega

end Lexicon

namespace Lexer

def nextTokens : Nat → LexM (List Token)
  | 0 => pure []
  | n + 1 => do
    let t ← nextToken
    let ts ← nextTokens n
    return t :: ts

end Lexer

namespace Lexing

open Lexicon

variable {net : Network} {l : Lexer} {src : List Char} {i : Nat}

theorem text_of_token? {ps : List Piece} {p : Piece} {t : Token} (h : Cuts 0 src ps) (hp : p ∈ ps)
    (ht : p.token? src = some t) :
    t.start = p.start ∧ t.stop = (p.start : Int) + p.chars.length - 1 ∧
      t.text = some (String.ofList p.chars) := by
  obtain ⟨before, after, rfl⟩ := List.append_of_mem hp
  obtain ⟨hstart, hne⟩ := h.start_eq
  have hsrc := h.flatMap_chars
  simp only [List.flatMap_append, List.flatMap_cons] at hsrc
  rw [Nat.zero_add] at hstart
  have hpos : 0 < p.chars.length := List.length_pos_iff.mpr hne
  have hlen := congrArg List.length hsrc
  simp only [List.length_append] at hlen
  have hcut : (src.drop p.start).take p.chars.length = p.chars := by
    rw [← hsrc, hstart, List.drop_left, List.take_left]
  cases hr : p.rule with
  | none => simp [Piece.token?, hr] at ht
  | some r =>
    by_cases hd : r.fate = .drop
    · simp [Piece.token?, hr, hd] at ht
    · simp only [Piece.token?, hr, hd, if_false, Option.some.injEq] at ht
      subst ht
      refine ⟨rfl, rfl, ?_⟩
      have htext := text_eq (n := p.chars.length) (show p.start < src.length by omega)
      rw [hcut] at htext
      simp only [Token.text, List.size_toArray, htext]
      rw [if_pos (by omega)]

section Calls

variable {rank : Nat → Nat} (hp : Plain net rank)
  (hs : spellsRules net net.state 0 rules = true) (ht : net.tokenTypes.isSome = true)
  (hmodes : net.modes = #[0])
include hp hs ht hmodes

theorem nextToken_eq (hb : Between net src i l) :
    ∃ t l' ps j, Lexer.nextToken l = .ok t l' ∧ Found net src i l t l' ps j := by
  have hfuel : src.length < i + (((src.length : Int) - i).toNat + 4) := by omega
  obtain ⟨t, l', ps, j, hfind, hfound⟩ := findToken_eq hp hs ht hmodes _ hb hfuel
  refine ⟨t, l', ps, j, ?_, hfound⟩
  simp only [Lexer.nextToken, Run.get_bind, hb.stands.input, CharStream.size, List.size_toArray]
  exact hfind

theorem nextTokens_end (hb : Between net src src.length l) (n : Nat) :
    ∃ l', Lexer.nextTokens n l = .ok (List.replicate n (eofToken src)) l' ∧
      l'.reports = l.reports := by
  induction n generalizing l with
  | zero => exact ⟨l, rfl, rfl⟩
  | succ n ih =>
    obtain ⟨t, l₁, ps, j, hnext, hfound⟩ := nextToken_eq hp hs ht hmodes hb
    rcases hfound.cuts with ⟨_, _, _, hj, _⟩ | ⟨rfl, rfl, hps⟩
    · have := hfound.between.le
      omega
    · obtain ⟨l', hrest, hreports⟩ := ih hfound.between
      rw [List.drop_length] at hps
      obtain rfl : ps = [] := hps.unique .done
      refine ⟨l', ?_, by simp [hreports, hfound.reports]⟩
      simp only [Lexer.nextTokens, Run.bind_ok hnext, Run.bind_ok hrest, List.replicate_succ]
      rfl

/-- Calls for tokens from any place of the text on: first the tokens of its pieces, then the end of
the text; and the reports of the pieces once all of them are read. -/
theorem nextTokens_eq (hb : Between net src i l) :
    ∃ ps, Cuts i (src.drop i) ps ∧ ∀ n, ∃ l',
      Lexer.nextTokens n l = .ok ((ps.filterMap (·.token? src) ++
        List.replicate n (eofToken src)).take n) l' ∧
      ((ps.filterMap (·.token? src)).length < n →
        l'.reports = l.reports ++ (ps.filterMap (·.report? src)).toArray) := by
  -- every call that gives a token of a piece goes forward
  induction hm : src.length - i using Nat.strongRecOn generalizing i l with
  | _ m ih =>
    obtain ⟨t, l₁, ps, j, hnext, hfound⟩ := nextToken_eq hp hs ht hmodes hb
    have hsilent : ps.filterMap (·.token? src) = [] := by
      rw [List.filterMap_eq_nil_iff]
      exact hfound.silent
    rcases hfound.cuts with ⟨p, hpt, hpr, hij, hcuts⟩ | ⟨rfl, rfl, hcuts⟩
    · have hj := hfound.between.le
      obtain ⟨qs, hqs, hall⟩ := ih (src.length - j) (by omega) hfound.between rfl
      refine ⟨ps ++ p :: qs, hcuts qs hqs, fun n => ?_⟩
      cases n with
      | zero => exact ⟨l, rfl, fun h => absurd h (Nat.not_lt_zero _)⟩
      | succ n =>
        obtain ⟨l', hrest, hreports⟩ := hall n
        have hshort : ∀ ts, (ts ++ List.replicate (n + 1) (eofToken src)).take n =
            (ts ++ List.replicate n (eofToken src)).take n := fun ts => by
          rw [List.replicate_succ', ← List.append_assoc, List.take_append_of_le_length (by simp)]
        refine ⟨l', ?_, fun h => ?_⟩
        · simp only [Lexer.nextTokens, Run.bind_ok hnext, Run.bind_ok hrest, List.filterMap_append,
            hsilent, List.filterMap_cons, hpt, List.nil_append, List.cons_append, List.take_succ_cons,
            hshort]
          rfl
        · simp only [List.filterMap_append, hsilent, List.filterMap_cons, hpt, List.nil_append,
            List.length_cons, Nat.add_lt_add_iff_right] at h
          rw [hreports h, hfound.reports]
          simp [hpr]
    · refine ⟨ps, hcuts, fun n => ?_⟩
      cases n with
      | zero => exact ⟨l, rfl, fun h => absurd h (Nat.not_lt_zero _)⟩
      | succ n =>
        obtain ⟨l', hrest, hreports⟩ := nextTokens_end hp hs ht hmodes hfound.between n
        refine ⟨l', ?_, fun _ => by rw [hreports, hfound.reports]⟩
        rw [hsilent, List.nil_append, List.take_of_length_le (by simp), List.replicate_succ]
        simp only [Lexer.nextTokens, Run.bind_ok hnext, Run.bind_ok hrest]
        rfl

end Calls

theorem between_ofSpec (spec : LexerSpec) (cs : List Char) (hd : 0 < spec.network.decisions.size)
    (hstrict : spec.strict = false) :
    Between spec.network cs 0 (.ofSpec spec (some ⟨cs.toArray, 0⟩)) := by
  have hsize : 0 < (Lexer.freshAutomata spec.network).size := by
    simpa [Lexer.freshAutomata] using hd
  refine ⟨⟨rfl, rfl, hsize, ?_⟩, ⟨rfl, rfl, rfl⟩, Nat.zero_le _, rfl, hstrict, rfl,
    fun h => nomatch h⟩
  have hget : (Lexer.freshAutomata spec.network).getD 0 {} =
      (Lexer.freshAutomata spec.network)[0] := by simp [Array.getD, hsize]
  rw [Lexer.ofSpec, hget]
  simp only [Lexer.freshAutomata, Array.getElem_mapIdx]
  exact cached_ofDecision _ _ _

theorem reports_ofSpec (spec : LexerSpec) (s : Option CharStream) :
    (Lexer.ofSpec spec s).reports = #[] := rfl

theorem serves_fresh (hd : 0 < net.decisions.size) : Serves net (Lexer.freshAutomata net) :=
  (between_ofSpec { network := net } [] hd rfl).ready.serves

end Lexing

namespace Grammar

open Lexing Lexicon

theorem lexerSpec_network : lexerSpec.network = lexerNetwork := by rw [lexerSpec]

theorem between_lexerOf (src : String) : Between lexerNetwork src.toList 0 (lexerOf src) := by
  rw [← lexerSpec_network]
  refine between_ofSpec lexerSpec src.toList ?_ rfl
  rw [lexerSpec_network]
  exact lexerNetwork_decisions

/-- Automata that the lexers of any number of texts, one after the other, have grown, each lexer
being asked for any number of tokens. -/
inductive Lexed : Array (Automaton LexConfigs) → Prop
  | fresh : Lexed (Lexer.freshAutomata lexerNetwork)
  | text {as : Array (Automaton LexConfigs)} {n : Nat} {ts : List Token} {l : Lexer} (src : String) :
    Lexed as → Lexer.nextTokens n (grown (lexerOf src) as) = .ok ts l → Lexed l.automata

theorem between_grown {as : Array (Automaton LexConfigs)} (ha : Serves lexerNetwork as)
    (src : String) : Between lexerNetwork src.toList 0 (grown (lexerOf src) as) := by
  have hb := between_lexerOf src
  exact ⟨⟨hb.ready.network, hb.ready.traced, ha.size, ha.cached⟩,
    ⟨hb.stands.input, hb.stands.line, hb.stands.column⟩, hb.le, hb.mode, hb.strict, hb.copyText,
    hb.hitEof⟩

theorem ready_of_nextTokens {src : List Char} {i n : Nat} {l l' : Lexer} {ts : List Token}
    (hb : Between lexerNetwork src i l) (h : Lexer.nextTokens n l = .ok ts l') :
    Ready lexerNetwork l' := by
  induction n generalizing i l ts with
  | zero =>
    cases h
    exact hb.ready
  | succ n ih =>
    obtain ⟨t, l₁, ps, j, hnext, hfound⟩ := nextToken_eq lexerNetwork_plain lexerNetwork_spells
      lexerNetwork_tokenTypes lexerNetwork_modes hb
    rw [Lexer.nextTokens, Run.bind_ok hnext, Run.bind_apply] at h
    cases hrest : Lexer.nextTokens n l₁ with
    | ok us l₂ =>
      rw [hrest] at h
      cases h
      exact ih hfound.between hrest
    | error e l₂ =>
      rw [hrest] at h
      cases h

theorem Lexed.serves {as : Array (Automaton LexConfigs)} (h : Lexed as) :
    Serves lexerNetwork as := by
  induction h with
  | fresh => exact serves_fresh lexerNetwork_decisions
  | text src _ htokens ih => exact (ready_of_nextTokens (between_grown ih src) htokens).serves

/-- The lexer makes the tokens of the one cut of the text by the lexical rules, reports each stretch
that no rule can read once, and gives the end of the text from then on. The pieces tile the text, and
each token has the text of its piece. What earlier texts have left in the cache has no part in this. -/
theorem nextTokens_lexerOf {as : Array (Automaton LexConfigs)} (has : Lexed as) (src : String) :
    ∃ pieces, Cuts 0 src.toList pieces ∧ (∀ ps, Cuts 0 src.toList ps → ps = pieces) ∧
      pieces.flatMap Piece.chars = src.toList ∧
      (∀ before p after, pieces = before ++ p :: after →
        p.start = (before.flatMap Piece.chars).length) ∧
      (∀ p ∈ pieces, ∀ t, p.token? src.toList = some t → t.start = p.start ∧
        t.stop = (p.start : Int) + p.chars.length - 1 ∧ t.text = some (String.ofList p.chars)) ∧
      ∀ n, ∃ l, Lexer.nextTokens n (grown (lexerOf src) as) =
          .ok ((pieces.filterMap (·.token? src.toList) ++
            List.replicate n (eofToken src.toList)).take n) l ∧
        ((pieces.filterMap (·.token? src.toList)).length < n →
          l.reports = (pieces.filterMap (·.report? src.toList)).toArray) := by
  obtain ⟨pieces, hcuts, hcalls⟩ := nextTokens_eq lexerNetwork_plain lexerNetwork_spells
    lexerNetwork_tokenTypes lexerNetwork_modes (between_grown has.serves src)
  rw [List.drop_zero] at hcuts
  refine ⟨pieces, hcuts, fun ps hps => hps.unique hcuts, hcuts.flatMap_chars, ?_,
    fun p hp t ht => text_of_token? hcuts hp ht, fun n => ?_⟩
  · rintro before p after rfl
    simpa using hcuts.start_eq.1
  · obtain ⟨l, htokens, hreports⟩ := hcalls n
    exact ⟨l, htokens, fun h => by simpa [grown, lexerOf, reports_ofSpec] using hreports h⟩

/-- A word behind which a numeral stays unfinished, read after another text: its tokens are those of a
first reading. -/
theorem nextTokens_lexerOf_again :
    ∃ ts₀ first pieces ts l l',
      Lexer.nextTokens 2 (grown (lexerOf "NI") (Lexer.freshAutomata lexerNetwork)) = .ok ts₀ first ∧
      Lexed first.automata ∧ Cuts 0 "NI.I".toList pieces ∧ pieces.flatMap Piece.chars = "NI.I".toList ∧
      Lexer.nextTokens 3 (grown (lexerOf "NI.I") first.automata) = .ok ts l ∧
      Lexer.nextTokens 3 (grown (lexerOf "NI.I") (Lexer.freshAutomata lexerNetwork)) = .ok ts l' := by
  obtain ⟨_, _, _, _, _, _, hcalls⟩ := nextTokens_lexerOf .fresh "NI"
  obtain ⟨first, hfirst, _⟩ := hcalls 2
  have has : Lexed first.automata := .text "NI" .fresh hfirst
  obtain ⟨pieces, hcuts, hunique, hchars, _, _, hcalls⟩ := nextTokens_lexerOf has "NI.I"
  obtain ⟨l, hrun, _⟩ := hcalls 3
  obtain ⟨pieces', hcuts', _, _, _, _, hcalls'⟩ := nextTokens_lexerOf .fresh "NI.I"
  obtain ⟨l', hrun', _⟩ := hcalls' 3
  obtain rfl := hunique pieces' hcuts'
  exact ⟨_, first, _, _, l, l', hfirst, has, hcuts, hchars, hrun, hrun'⟩

end Grammar

end Throbac
