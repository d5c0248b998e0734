import Throbac.Proofs.Grammar.Ending
import Throbac.Proofs.Parsing.Sessions

/-!
# What a parser accepts

A parser that reads a whole source without a report has read a phrase of its rule: the tree is derived
and has the tokens of the source as its leaves, up to the place where the parser stands at the end. It
does not matter for this how the parser decides between alternatives.
-/
namespace Throbac

open TokenStream (On At Holds)
open Lexicon (Cuts tape Piece)

namespace Parser

variable {R : CacheCondition} {T : Tape} {B : Prop} {choose : Int → ParseM Int}

theorem Passed.sound {n : Nat} {p p' : Parser} {t : ParseTree}
    (h : Passed R T n (T.seek 0) p (some t) p') (hclean : p'.core.reports = #[]) :
    t.rule? = some (n : Int) ∧ Derived t ∧
      t.leaves = (T.tokens.take (if n = 0 then T.last + 1 else p'.place)).filter Tape.visible := by
  obtain ⟨c, hc, _, _, htree⟩ := h.tree
  obtain ⟨hrule, hderived, hwalk⟩ := htree hclean
  obtain rfl := Option.some.inj hc
  refine ⟨hrule, hderived, ?_⟩
  have hall : T.ahead (T.seek 0) = T.tokens.filter Tape.visible := by
    rw [← Tape.ahead_seek (Nat.zero_le _), Tape.ahead, List.drop_zero]
  split
  · next hn =>
    subst hn
    obtain ⟨ts, x, hleaves, hts, hx⟩ := hderived.leaves_script hrule
    rw [hleaves] at hwalk ⊢
    rw [← (hwalk.ahead_eq_of_eof Tape.seek_seek hts hx).1, hall,
      List.take_of_length_le (Nat.le_of_eq T.length_tokens)]
  · next hn =>
    have hinner : t.isInner = true := by
      cases t with
      | leaf x e => cases hrule
      | node i cs =>
        have hkind : i.kind.rule = n := Option.some.inj hrule
        simp [ParseTree.isInner, hkind, hn]
    have hahead := hwalk.ahead_eq Tape.seek_seek (hderived.isEof_leaves hinner)
    rw [hall, ← List.take_append_drop p'.place T.tokens, List.filter_append] at hahead
    exact (List.append_cancel_right hahead).symm

end Parser

namespace Grammar

variable {R : CacheCondition} {choose : Int → ParseM Int} {src : String} {ps : List Piece}

theorem exists_of_cleanTree {r : EStateM.Result Interruption Parser ParseTree} {t : ParseTree}
    (h : (cleanTree r).toOption = some t) : ∃ p, r = .ok t p ∧ p.core.reports = #[] := by
  cases r with
  | error e p => cases h
  | ok u p =>
    rw [cleanTree] at h
    split at h
    · next hclean =>
      cases h
      exact ⟨p, rfl, by simpa using hclean⟩
    · cases h

theorem eq_zero_iff {rule : String} {n : Nat} (hrule : ruleNames.idxOf? rule = some n) :
    n = 0 ↔ rule = "script" := by
  rw [show ruleNames = ruleNames.toList.toArray from rfl, List.idxOf?_toArray] at hrule
  constructor
  · rintro rfl
    obtain ⟨_, hget, _⟩ := List.idxOf?_eq_some_iff.1 hrule
    exact hget.symm
  · rintro rfl
    exact Option.some.inj (hrule.symm.trans (by decide))

/-- Whatever was read before and whatever alternatives it decides on, a parser that gives a tree of a
source and reports nothing has derived the tree from its rule. No part of the tree bears the mark of an
error, and its leaves are the tokens that the parser sees up to the place where it stands at the end; for
a script these are all there are, the end of the source among them. -/
theorem derived_of_parseWith {old : Option Parser} (hold : Session R old) (hcuts : Cuts 0 src.toList ps)
    {rule : String} {n : Nat} (hrule : ruleNames.idxOf? rule = some n)
    (hchoose : Parser.Chooses R (tape src.toList hcuts) True choose) {t : ParseTree} {p : Parser}
    (hparse : parseWith choose rule none (parserAfter old src) = .ok t p) (hclean : p.core.reports = #[]) :
    t.rule? = some (n : Int) ∧ Derived t ∧
      (∀ s ∈ t.descendants, match s with
        | .leaf _ e => e = false
        | .node i _ => i.failure = none) ∧
      t.leaves = ((tape src.toList hcuts).tokens.take (if rule = "script" then
        (tape src.toList hcuts).tokens.length else p.place)).filter Tape.visible := by
  have hends := Parser.parseWith_ends (spelled_tape hcuts) hchoose hrule
    (poised_parserAfter hcuts hold.learned)
  rw [Ends, hparse] at hends
  obtain ⟨ht, hderived, hleaves⟩ := hends.sound hclean
  refine ⟨ht, hderived, hderived.no_errors, ?_⟩
  simp only [hleaves, eq_zero_iff hrule, Tape.length_tokens]

/-- A way to decide that takes a statement for the return of a value, and never continues an expression. -/
def chooseReturn (d : Int) : ParseM Int := pure (if d = 8 then 7 else 2)

theorem chooses_chooseReturn (T : Tape) : Parser.Chooses (fun _ _ => True) T True chooseReturn := by
  intro d rule p hd hgood _
  have hwidth := width_predicted hd
  refine .pure ⟨hgood.still, ?_, fun h => absurd trivial h⟩
  split at hwidth <;> split <;> omega

/-- A value is given back, though the source before this one had an error: both decisions are made in
the way of `chooseReturn`, and the tree has the two words of the statement as leaves. -/
theorem derived_of_parseWith_giveBack :
    ∃ old t p, Session (fun _ _ => True) (some old) ∧ old.core.reports ≠ #[] ∧
      parseWith chooseReturn "statement" none (parserAfter (some old) "x REDEO") = .ok t p ∧
      p.core.reports = #[] ∧ Derived t ∧ t.leaves.map Token.type = [37, 16] := by
  have hread : Run.gives (fun _ old => !old.core.reports.isEmpty &&
        Run.gives (fun t p => p.core.reports.isEmpty && t.leaves.map Token.type == [37, 16])
          (parseWith chooseReturn "statement" none (parserAfter (some old) "x REDEO")))
      (parseWith chooseReturn "expr" none (parserAfter none "")) = true := by
    decide +kernel
  obtain ⟨_, old, hfirst, hread⟩ := Run.exists_of_gives hread
  obtain ⟨hreports, hread⟩ := Bool.and_eq_true_iff.1 hread
  obtain ⟨t, p, hparse, hread⟩ := Run.exists_of_gives hread
  obtain ⟨hclean, htypes⟩ := Bool.and_eq_true_iff.1 hread
  obtain ⟨_, hcuts⟩ := exists_cuts_lexerOf ""
  obtain ⟨_, hcuts'⟩ := exists_cuts_lexerOf "x REDEO"
  have hold : Session (fun _ _ => True) (some old) :=
    .read hcuts (.start trivial) (chooses_chooseReturn _) hfirst
  have hstatement : ruleNames.idxOf? "statement" = some 8 := by
    rw [show ruleNames = ruleNames.toList.toArray from rfl, List.idxOf?_toArray]
    decide
  have hclean : p.core.reports = #[] := by simpa using hclean
  obtain ⟨_, hderived, _⟩ :=
    derived_of_parseWith hold hcuts' hstatement (chooses_chooseReturn _) hparse hclean
  exact ⟨old, t, p, hold, by simpa using hreports, hparse, hclean, hderived, eq_of_beq htypes⟩

end Grammar

end Throbac
