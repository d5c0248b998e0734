import Throbac.Proofs.Lexing.Tokenization
import Throbac.Proofs.Stream.Moves

/-!
# The tapes of sources

A lexer of the language hands out the tokens of the pieces of its text. A list of tokens hands them
out as they are.
-/
namespace Throbac

namespace Lexicon

open Lexing

theorem Cuts.mem_rules {start : Nat} {rest : List Char} {ps : List Piece} {p : Piece} {r : LexRule}
    (h : Cuts start rest ps) (hp : p ∈ ps) (hr : p.rule = some r) : r ∈ rules := by
  induction h with
  | done => simp at hp
  | matched hl _ ih =>
    rcases List.mem_cons.1 hp with rfl | hp
    · obtain rfl := Option.some.inj hr
      exact hl.mem_rules
    · exact ih hp
  | unreadable _ _ ih =>
    rcases List.mem_cons.1 hp with rfl | hp
    · exact nomatch hr
    · exact ih hp

theorem Cuts.length_le {start : Nat} {rest : List Char} {ps : List Piece} (h : Cuts start rest ps) :
    ps.length ≤ rest.length := by
  induction h with
  | done => simp
  | matched hl _ ih | unreadable hl _ ih =>
    have := hl.pos
    have := hl.le
    rw [List.length_drop] at ih
    rw [List.length_cons]
    omega

theorem Cuts.isEof {start : Nat} {src rest : List Char} {ps : List Piece} (h : Cuts start rest ps) :
    ∀ t ∈ ps.filterMap (·.token? src), t.isEof = false := by
  intro t ht
  obtain ⟨p, hp, hpt⟩ := List.mem_filterMap.1 ht
  cases hr : p.rule with
  | none => simp [Piece.token?, hr] at hpt
  | some r =>
    have hpos := symbol_pos (h.mem_rules hp hr)
    have hne : r.symbol ≠ Symbol.eof := by
      rw [Symbol.eof]
      omega
    by_cases hd : r.fate = .drop
    · simp [Piece.token?, hr, hd] at hpt
    · simp only [Piece.token?, hr, hd, if_false, Option.some.injEq] at hpt
      simp [← hpt, Token.isEof, hne]

def tape (src : List Char) {ps : List Piece} (h : Cuts 0 src ps) : Tape where
  body := ps.filterMap (·.token? src)
  ending := eofToken src
  silent := ps.all (·.rule.isSome)
  lexed l := Serves Grammar.lexerNetwork l.automata
  body_isEof := h.isEof
  ending_isEof := rfl

end Lexicon

namespace Lexing

open Lexicon

/-- A lexer with the given tokens ahead: those of the pieces that are left and the end, or nothing if
the end was taken. -/
def Ahead (net : Network) (src : List Char) (silent : Bool) (ts : List Token) (s : TokenSource) :
    Prop :=
  ∃ l i ps, s = .lexer l ∧ Between net src i l ∧ Cuts i (src.drop i) ps ∧
    (ts = ps.filterMap (·.token? src) ++ [eofToken src] ∨ ts = []) ∧
    (silent = true → l.reports = #[] ∧ ∀ p ∈ ps, p.rule.isSome = true)

variable {net : Network} {src : List Char} {silent : Bool}

section Supplies

variable {rank : Nat → Nat} (hp : Plain net rank)
  (hs : spellsRules net net.state 0 rules = true) (ht : net.tokenTypes.isSome = true)
  (hmodes : net.modes = #[0])
include hp hs ht hmodes

theorem exists_cuts {l : Lexer} {i : Nat} (hb : Between net src i l) :
    ∃ ps, Cuts i (src.drop i) ps := by
  obtain ⟨ps, hcuts, _⟩ := nextTokens_eq hp hs ht hmodes hb
  exact ⟨ps, hcuts⟩

theorem supply_ahead : Supply silent (fun l => Serves net l.automata) (Ahead net src silent) where
  next := by
    rintro t ts _ ⟨l, i, ps, rfl, hb, hcuts, hts, hsilent⟩
    obtain ⟨t', l', qs, j, hnext, hfound⟩ := nextToken_eq hp hs ht hmodes hb
    have hnil : qs.filterMap (·.token? src) = [] := List.filterMap_eq_nil_iff.2 hfound.silent
    have hts : t :: ts = ps.filterMap (·.token? src) ++ [eofToken src] := by simpa using hts
    have hnext' : TokenSource.next (.lexer l) = .ok t' (.lexer l') := by
      simp only [TokenSource.next, hnext]
    have hquiet : silent = true → (∀ p ∈ qs, p.rule.isSome = true) → l'.reports = #[] := by
      intro h hall
      have hreports : qs.filterMap (·.report? src) = [] := by
        rw [List.filterMap_eq_nil_iff]
        intro p hp
        obtain ⟨r, hr⟩ := Option.isSome_iff_exists.1 (hall p hp)
        simp [Piece.report?, hr]
      rw [hfound.reports, (hsilent h).1, hreports]
      rfl
    rcases hfound.cuts with ⟨p, hpt, hpr, hij, hbehind⟩ | ⟨rfl, rfl, hqs⟩
    · obtain ⟨rest, hrest⟩ := exists_cuts hp hs ht hmodes hfound.between
      obtain rfl := hcuts.unique (hbehind rest hrest)
      simp only [List.filterMap_append, hnil, List.filterMap_cons, hpt, List.nil_append,
        List.cons_append, List.cons.injEq] at hts
      refine ⟨_, hts.1 ▸ hnext', fun k => ⟨l', j, rest, rfl, hfound.between, hrest, .inl hts.2,
        fun h => ⟨hquiet h fun q hq => (hsilent h).2 q (by simp [hq]),
          fun q hq => (hsilent h).2 q (by simp [hq])⟩⟩⟩
    · obtain rfl := hcuts.unique hqs
      rw [hnil, List.nil_append, List.cons.injEq] at hts
      refine ⟨_, hts.1 ▸ hnext', fun k => ⟨l', src.length, [], rfl, hfound.between, ?_, .inr hts.2,
        fun h => ⟨hquiet h (hsilent h).2, by simp⟩⟩⟩
      rw [List.drop_length]
      exact .done
  cleared := by
    rintro ts l ⟨l, i, ps, hl, hb, hcuts, hts, hsilent⟩
    cases hl
    exact ⟨_, i, ps, rfl, hb.aside l.token #[] #[] l.fresh, hcuts, hts, fun h => ⟨rfl, (hsilent h).2⟩⟩
  quiet := by
    rintro ts l h ⟨l, i, ps, hl, _, _, _, hsilent⟩
    cases hl
    exact (hsilent h).1
  lexer := by
    rintro ts _ ⟨l, i, ps, hl, hb, -⟩
    cases hl
    exact hb.ready.serves
  bound := by
    rintro ts _ ⟨l, i, ps, rfl, hb, hcuts, hts, _⟩
    have hlen := hcuts.length_le
    have hle := List.length_filterMap_le (·.token? src) ps
    rw [List.length_drop] at hlen
    rcases hts with rfl | rfl
    · simp only [TokenSource.remaining, hb.stands.input, CharStream.size, List.size_toArray,
        List.length_append, List.length_singleton]
      omega
    · simp

end Supplies

end Lexing

namespace ListSource

def Ahead (ts : List Token) (s : TokenSource) : Prop :=
  ∃ l rest, s = .list l ∧ l.tokens.toList.drop l.pos = ts ++ rest

theorem supply_ahead (silent : Bool) (lexed : Lexer → Prop) : Supply silent lexed Ahead where
  next := by
    rintro t ts _ ⟨l, rest, rfl, htokens⟩
    have hget : l.tokens[l.pos]? = some t := by
      rw [← Array.getElem?_toList, ← List.head?_drop, htokens]
      rfl
    have hdrop : l.tokens.toList.drop (l.pos + 1) = ts ++ rest := by
      rw [← List.drop_drop, htokens]
      rfl
    refine ⟨_, by simp only [TokenSource.next, ListSource.next, Run.get_bind, hget]; rfl,
      fun i => ⟨_, rest, rfl, ?_⟩⟩
    simp only [ListSource.number, Nat.add_sub_cancel, Array.toList_modify]
    rw [← hdrop]
    refine List.ext_getElem? fun n => ?_
    have hne : l.pos ≠ l.pos + 1 + n := by omega
    simp only [List.getElem?_drop, List.getElem?_modify, hne, if_false, id_map']
  cleared := by
    rintro ts l ⟨_, _, hl, _⟩
    exact nomatch hl
  quiet := by
    rintro ts l _ ⟨_, _, hl, _⟩
    exact nomatch hl
  lexer := by
    rintro ts l ⟨_, _, hl, _⟩
    exact nomatch hl
  bound := by
    rintro ts _ ⟨l, rest, rfl, htokens⟩
    have := congrArg List.length htokens
    simp only [List.length_drop, Array.length_toList, List.length_append] at this
    simp only [TokenSource.remaining]
    omega

end ListSource

end Throbac
