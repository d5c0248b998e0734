import Throbac.Program.Translate
import Throbac.Proofs.Parsing.Invocation
import Throbac.Proofs.Stream.Sources

/-!
# Reading one source after another

A parser begins with what earlier ones have learned: the automata of the decisions and of the lexer, the
stacks that were met, and the table of the symbols that can come next, which recovery may have changed.
Whatever was read before, a new parser is in good order and comes to an end, and what it leaves is in
good order too.
-/
namespace Throbac

open TokenStream (On At Holds)
open Lexicon (Cuts tape Piece)

namespace Parser

variable {R : CacheCondition} {T : Tape} {B : Prop} {choose : Int → ParseM Int}

theorem Poised.holds {i : Nat} {p : Parser} (h : Poised R T i p) : Holds T p.core.stream :=
  h.located.elim (fun h => h.toHolds) fun h => h.1

theorem effort_le_last (p : Parser) : p.effort T ≤ (T.last + 1) * 162 + 161 := by
  have htrials := p.trials_le
  have hahead := T.length_ahead_le p.place
  unfold effort
  split <;> omega

theorem enough_fuel {p : Parser} (h : Holds T p.core.stream) (n : Nat) :
    ((T.last + 1) * 162 + 161) * Grammar.levels + Grammar.phraseLevels n ≤
      Nat.pow 2 14 * p.core.stepBound := by
  have hremaining := h.remaining
  have hlevels : Grammar.phraseLevels n ≤ 55 := by
    unfold Grammar.phraseLevels
    split <;> omega
  have hpow : Nat.pow 2 14 = 16384 := rfl
  rw [hpow, Grammar.levels, Recognizer.stepBound]
  omega

theorem parseWith_ends {p : Parser} {rule : String} {n : Nat} (hT : T.Spelled)
    (hchoose : Chooses R T B choose) (hrule : Grammar.ruleNames.idxOf? rule = some n)
    (h : Poised R T (T.seek 0) p) :
    Ends (Broken B) (Grammar.parseWith choose rule none) p
      (fun t p' => Passed R T n (T.seek 0) p (some t) p') fun _ _ => False := by
  obtain ⟨k, _, rfl⟩ := Option.map_eq_some_iff.1 hrule
  have hk : k.val < Grammar.rules.size := k.isLt
  have hr : Grammar.rules[k.val]? = some Grammar.rules[k.val] := Array.getElem?_eq_getElem hk
  have hinvoke := (specs hT hchoose (Nat.pow 2 14 * p.core.stepBound)).invoke k _ 0 (T.seek 0) _ p hr
    (by decide) h (fun p₁ _ _ => p₁.effort_le_last) (.inr (enough_fuel h.holds k))
  rw [Grammar.parseWith, hrule]
  dsimp only
  rw [if_neg (by simp)]
  refine .bind_ok rfl (hinvoke.bind fun t p' h' => ?_)
  obtain ⟨c, rfl, _⟩ := h'.1.tree
  exact .pure h'.1

/-- What a parser leaves to the next one is in good order. -/
structure Learned (R : CacheCondition) (p : Parser) : Prop where
  caches : R p.core.automata p.core.contexts
  looks : p.core.looks.Named
  lexer : ∀ l, p.core.stream.source = .lexer l → Lexing.Serves Grammar.lexerNetwork l.automata

/-! Parsers that have read nothing yet, first for any grammar, so that the networks stay closed. -/

theorem learned_ofSpec {spec : ParserSpec} {l : Lexer} (hR : R (Recognizer.freshAutomata spec.network) [])
    (hl : Lexing.Serves Grammar.lexerNetwork l.automata) :
    Learned R (ofSpec spec { source := .lexer l }) := by
  refine ⟨hR, fun e he => absurd he List.not_mem_nil, fun k hk => ?_⟩
  cases hk
  exact hl

theorem exists_adopted (spec : ParserSpec) {l : Lexer} (hl : Lexing.Serves Grammar.lexerNetwork l.automata)
    {old : Parser} (h : Learned R old) :
    ∃ as n, Lexing.Serves Grammar.lexerNetwork as ∧
      ((ofSpec spec { source := .lexer l }).adopt old).core.stream =
        { source := .lexer { l with automata := as, fresh := n } } := by
  cases hs : old.core.stream.source with
  | lexer k => exact ⟨k.automata, k.fresh, h.lexer k hs, by simp only [adopt, ofSpec, Recognizer.ofSpec, hs]⟩
  | list s => exact ⟨l.automata, l.fresh, hl, by simp only [adopt, ofSpec, Recognizer.ofSpec, hs]⟩

theorem adopt_ofSpec (spec : ParserSpec) (lexer : LexerSpec) (s s' : Option CharStream) :
    (ofSpec spec { source := .lexer (.ofSpec lexer s) }).adopt (ofSpec spec { source := .lexer (.ofSpec lexer s') }) =
      ofSpec spec { source := .lexer (.ofSpec lexer s) } := rfl

theorem poised_ofSpec {stream : TokenStream} (hlocated : At T (T.seek 0) stream) :
    Poised (fun _ _ => True) T (T.seek 0) (.ofSpec Grammar.parserSpec stream) where
  spec := rfl
  connected := rfl
  mode := rfl
  logging := rfl
  remarks := rfl
  diagnosis := rfl
  watch := rfl
  building := rfl
  bails := rfl
  listeners := rfl
  caches := trivial
  merges := rfl
  precedences := ⟨List.cons_ne_nil _ _, by simp [ofSpec, Recognizer.ofSpec, precedenceLevels]⟩
  looks := by simp [ofSpec, Recognizer.ofSpec, LookTable.Named]
  rules := by simp [callers, ofSpec]
  state h := absurd rfl h
  located := hlocated
  invoked := .outermost (show (-1 : Int) < 0 by decide)
  recovering h := nomatch h

theorem Poised.adopt {R' : CacheCondition} {i : Nat} {p old : Parser} (h : Poised R' T i p)
    (hold : Learned R old) (hlocated : At T i (p.adopt old).core.stream) : Poised R T i (p.adopt old) :=
  { h with caches := hold.caches, looks := hold.looks, located := hlocated }

end Parser

namespace Grammar

open Throbac.Parser (Learned Poised)

variable {R : CacheCondition} {src : String} {ps : List Piece}

theorem exists_cuts_lexerOf (src : String) : ∃ ps, Cuts 0 src.toList ps := by
  have h := Lexing.exists_cuts lexerNetwork_plain lexerNetwork_spells lexerNetwork_tokenTypes
    lexerNetwork_modes (between_lexerOf src)
  rwa [List.drop_zero] at h

theorem spelled_tape (h : Cuts 0 src.toList ps) : (tape src.toList h).Spelled := by
  intro t ht
  obtain ⟨p, hp, hpt⟩ := List.mem_filterMap.1 ht
  rw [(Lexing.text_of_token? h hp hpt).2.2]
  rfl

theorem feeds_of_between (h : Cuts 0 src.toList ps) {l : Lexer} (hb : Lexing.Between lexerNetwork src.toList 0 l)
    (hreports : l.reports = #[]) :
    Feeds (tape src.toList h).silent (tape src.toList h).lexed (tape src.toList h).raw (.lexer l) :=
  ⟨_, Lexing.supply_ahead lexerNetwork_plain lexerNetwork_spells lexerNetwork_tokenTypes
    lexerNetwork_modes, l, 0, ps, rfl, hb, h, .inl rfl, fun hs => ⟨hreports, List.all_eq_true.1 hs⟩⟩

theorem learned_of_ready (hcuts : Cuts 0 src.toList ps) {p : Parser} (h : Parser.Ready R p)
    (hholds : Holds (tape src.toList hcuts) p.core.stream) : Learned R p := by
  obtain ⟨P, hP, hfeeds⟩ := hholds.feeds
  exact ⟨h.caches, h.looks, fun l hl => hP.lexer (hl ▸ hfeeds)⟩

theorem learned_parserOf (hR : R (Recognizer.freshAutomata parserNetwork) []) (src : String) :
    Learned R (parserOf src) :=
  Parser.learned_ofSpec (by rw [parserSpec_network]; exact hR) (between_lexerOf src).ready.serves

theorem poised_adopt (hcuts : Cuts 0 src.toList ps) {old : Parser} (h : Learned R old) :
    Poised R (tape src.toList hcuts) ((tape src.toList hcuts).seek 0) ((parserOf src).adopt old) := by
  have hb := between_lexerOf src
  have hreports : (lexerOf src).reports = #[] := Lexing.reports_ofSpec ..
  have hnew : Poised _ (tape src.toList hcuts) _ (parserOf src) :=
    Parser.poised_ofSpec (TokenStream.at_new (feeds_of_between hcuts hb hreports))
  obtain ⟨as, n, ha, hstream⟩ := Parser.exists_adopted parserSpec hb.ready.serves h
  refine hnew.adopt h ?_
  rw [parserOf, hstream]
  have hb' := (between_grown ha src).aside (lexerOf src).token (lexerOf src).reports (lexerOf src).trace n
  exact TokenStream.at_new (feeds_of_between hcuts hb' hreports)

/-- The first parser is like one that follows a parser which has read nothing. -/
theorem parserAfter_eq (old : Option Parser) (src : String) :
    parserAfter old src = (parserOf src).adopt (old.getD (parserOf "")) := by
  cases old with
  | none => exact (Parser.adopt_ofSpec parserSpec lexerSpec _ _).symm
  | some p => rfl

theorem poised_parserAfter (hcuts : Cuts 0 src.toList ps) {old : Option Parser}
    (h : Learned R (old.getD (parserOf ""))) :
    Poised R (tape src.toList hcuts) ((tape src.toList hcuts).seek 0) (parserAfter old src) := by
  rw [parserAfter_eq]
  exact poised_adopt hcuts h

/-- The last parser of a session, in which sources are read one after another and each parser knows what
the one before has learned. Every source may be read by a rule of its own and with its own way to decide
between alternatives. -/
inductive Session (R : CacheCondition) : Option Parser → Prop
  | start : R (Recognizer.freshAutomata parserNetwork) [] → Session R none
  | read {old : Option Parser} {src rule : String} {ps : List Piece} {choose : Int → ParseM Int}
    {t : ParseTree} {p : Parser} (hcuts : Cuts 0 src.toList ps) : Session R old →
    Parser.Chooses R (tape src.toList hcuts) True choose →
    parseWith choose rule none (parserAfter old src) = .ok t p → Session R (some p)

theorem exists_index_of_parseWith {choose : Int → ParseM Int} {rule : String} {t : ParseTree} {p p' : Parser}
    (h : parseWith choose rule none p = .ok t p') : ∃ n, ruleNames.idxOf? rule = some n := by
  cases hn : ruleNames.idxOf? rule with
  | none =>
    rw [parseWith, hn] at h
    cases h
  | some n => exact ⟨n, rfl⟩

theorem Session.learned {old : Option Parser} (h : Session R old) : Learned R (old.getD (parserOf "")) := by
  induction h with
  | start hR => exact learned_parserOf hR ""
  | read hcuts _ hchoose hparse ih =>
    obtain ⟨n, hn⟩ := exists_index_of_parseWith hparse
    have hends := Parser.parseWith_ends (spelled_tape hcuts) hchoose hn (poised_parserAfter hcuts ih)
    rw [Ends, hparse] at hends
    exact learned_of_ready hcuts hends.ready hends.on.toHolds

end Grammar

end Throbac
