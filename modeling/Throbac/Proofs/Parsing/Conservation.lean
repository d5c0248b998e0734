import Throbac.Proofs.Parsing.Choosing

/-!
# No token is lost

Whatever the input, the leaves of the tree that a parser gives are the tokens it has passed, each once
and in order, apart from the end of the input and tokens that recovery made up.
-/
namespace Throbac

open Lexicon (Cuts tape Piece)

namespace Tape

variable {T : Tape} {i : Nat} {ts : List Token}

theorem Trail.filter_eq (h : T.Trail (T.seek 0) ts i) (hi : i ≤ T.last) :
    ts.filter Token.isReal = (T.tokens.take i).filter (·.channel == 0) := by
  have hahead := h.ahead_eq seek_seek
  rw [← ahead_seek (Nat.zero_le _), ahead, List.drop_zero, ← List.take_append_drop i T.tokens,
    List.filter_append] at hahead
  rw [← List.append_cancel_right hahead]
  refine List.filter_congr fun t ht => ?_
  obtain ⟨k, hk⟩ := List.mem_iff_getElem?.1 ht
  rw [List.getElem?_take] at hk
  split at hk
  · next hlt =>
    rw [tokens_getElem? (by omega)] at hk
    rw [← Option.some.inj hk, visible, isEof_token (by omega), decide_eq_false (by omega), Bool.or_false]
  · cases hk

end Tape

namespace Grammar

open Throbac.Parser (Learned Passed)
open Prediction (Grown)

theorem exists_idxOf {rule : String} (h : rule ∈ ruleNames) : ∃ n, ruleNames.idxOf? rule = some n := by
  rw [← Option.isSome_iff_exists, show ruleNames = ruleNames.toList.toArray from rfl,
    List.idxOf?_toArray, List.isSome_idxOf?]
  exact Array.mem_def.1 h

/-- What is left of the sources of a history, each read by its rule and translated with what was learned
from those before it. -/
def learnedFrom (history : List (String × String)) : Option Parser :=
  history.foldl (fun old source => some (translateAfter old source.1 source.2).2) none

section

variable {old : Option Parser} {src rule : String} {ps : List Piece} {n : Nat}

theorem exists_passed (h : Learned (Grown parserNetwork) (old.getD (parserOf "")))
    (hcuts : Cuts 0 src.toList ps) (hn : ruleNames.idxOf? rule = some n) :
    ∃ t p, parse rule none (parserAfter old src) = .ok t p ∧
      Passed (Grown parserNetwork) (tape src.toList hcuts) n ((tape src.toList hcuts).seek 0)
        (parserAfter old src) (some t) p := by
  have hends := Parser.parseWith_ends (spelled_tape hcuts) (Parser.chooses_predict _) hn
    (poised_parserAfter hcuts h)
  rcases hends.cases with ⟨t, p, hrun, hpassed⟩ | ⟨_, _, _, h⟩ | ⟨_, _, _, _, h⟩
  · exact ⟨t, p, hrun, hpassed⟩
  · exact h.elim
  · exact h.1.elim

theorem learned_translateAfter (h : Learned (Grown parserNetwork) (old.getD (parserOf "")))
    (src rule : String) : Learned (Grown parserNetwork) (translateAfter old src rule).2 := by
  obtain ⟨ps, hcuts⟩ := exists_cuts_lexerOf src
  cases hn : ruleNames.idxOf? rule with
  | none =>
    -- there is no such rule, and nothing is read
    have hparse : parse rule none (parserAfter old src) = .error (.fault .noMember) (parserAfter old src) := by
      rw [parse, parseWith, hn]
      rfl
    have hpoised := poised_parserAfter hcuts h
    rw [translateAfter, hparse]
    exact learned_of_ready hcuts hpoised.toReady hpoised.holds
  | some n =>
    obtain ⟨t, p, hparse, hpassed⟩ := exists_passed h hcuts hn
    rw [translateAfter, hparse]
    exact learned_of_ready hcuts hpassed.ready hpassed.on.toHolds

theorem learned_learnedFrom (history : List (String × String)) :
    Learned (Grown parserNetwork) ((learnedFrom history).getD (parserOf "")) := by
  have hfold : ∀ old, Learned (Grown parserNetwork) (Option.getD old (parserOf "")) →
      Learned (Grown parserNetwork) ((history.foldl (fun old source =>
        some (translateAfter old source.1 source.2).2) old).getD (parserOf "")) := by
    induction history with
    | nil => exact fun _ h => h
    | cons source rest ih => exact fun old h => ih _ (learned_translateAfter h source.1 source.2)
  exact hfold none (learned_parserOf Prediction.grown_fresh "")

end

/-- Whatever was translated before, parsing comes to an end on every source and keeps every token: the
real tokens among the leaves of the tree are those of the default channel up to where the stream stands
at the end, each once and in order. All other leaves are ends of the input or tokens that recovery made
up. -/
theorem leaves_of_parse (history : List (String × String)) (src : String) {rule : String}
    (hrule : rule ∈ ruleNames) :
    ∃ ps, ∃ h : Cuts 0 src.toList ps, ∃ t p, ∃ k : Nat,
      parse rule none (parserAfter (learnedFrom history) src) = .ok t p ∧ p.core.stream.index = k ∧
      t.leaves.filter Token.isReal = ((tape src.toList h).tokens.take k).filter (·.channel == 0) ∧
      ∀ x ∈ t.leaves, x.isReal = true ∨ x.isEof = true ∨ x.MadeUp := by
  obtain ⟨ps, hcuts⟩ := exists_cuts_lexerOf src
  obtain ⟨n, hn⟩ := exists_idxOf hrule
  obtain ⟨t, p, hrun, hpassed⟩ := exists_passed (learned_learnedFrom history) hcuts hn
  obtain ⟨c, hc, htrail, _⟩ := hpassed.tree
  obtain rfl := Option.some.inj hc
  exact ⟨ps, hcuts, t, p, p.place, hrun, hpassed.on.index, htrail.filter_eq hpassed.on.le,
    htrail.real_or_extra⟩

/-- After a source of which nothing could be read, a colon is made up in a declaration without one. The
words of the declaration are kept and all of it is passed. -/
theorem leaves_of_parse_colon :
    ∃ t p, parse "nameDef" none (parserAfter (learnedFrom [("", "nameDef")]) "x NUMERUS") = .ok t p ∧
      p.core.stream.index = 2 ∧ (t.leaves.filter Token.isReal).map Token.type = [37, 36] ∧
      t.leaves.map Token.type = [37, 8, 36] ∧ ∃ x ∈ t.leaves, x.MadeUp := by
  have hread : Run.gives (fun t p => p.core.stream.index == 2 && t.leaves.map Token.type == [37, 8, 36] &&
        (t.leaves.filter Token.isReal).map Token.type == [37, 36] && t.leaves.all (!·.isEof))
      (parse "nameDef" none (parserAfter (learnedFrom [("", "nameDef")]) "x NUMERUS")) = true := by
    decide +kernel
  obtain ⟨t, p, hparse, htests⟩ := Run.exists_of_gives hread
  simp only [Bool.and_eq_true, beq_iff_eq, List.all_eq_true, Bool.not_eq_true'] at htests
  obtain ⟨⟨⟨hindex, htypes⟩, hwords⟩, heof⟩ := htests
  have hname : "nameDef" ∈ ruleNames := by simp [ruleNames]
  obtain ⟨_, _, _, _, _, hparse', _, _, hall⟩ := leaves_of_parse [("", "nameDef")] "x NUMERUS" hname
  obtain ⟨rfl, rfl⟩ := EStateM.Result.ok.inj (hparse.symm.trans hparse')
  have hcolon : 8 ∈ t.leaves.map Token.type := by
    rw [htypes]
    decide
  obtain ⟨x, hx, hcolon⟩ := List.mem_map.1 hcolon
  have hreal : ¬ x.isReal = true := by
    intro h
    have := List.mem_map_of_mem (f := Token.type) (List.mem_filter.2 ⟨hx, h⟩)
    rw [hwords, hcolon] at this
    exact absurd this (by decide)
  refine ⟨t, p, hparse, hindex, hwords, htypes, x, hx, ?_⟩
  exact ((hall x hx).resolve_left hreal).resolve_left (by rw [heof x hx]; decide)

end Grammar

end Throbac
