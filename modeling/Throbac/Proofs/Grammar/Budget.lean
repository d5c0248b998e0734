import Throbac.Grammar.Rules

/-!
# What the rules cost

A parser that follows the rules goes deeper with every part, but it comes back to a rule only after
it has taken a token. So a number of levels is enough for each rule, whatever the input: a part that
is known to start with the present token is followed by parts that have all the levels again.
-/
namespace Throbac

namespace Grammar

/-- Symbols by which a phrase of a rule is known to start, where that matters. -/
def phraseFirst : Nat → List Int
  | 1 => [1, 3]
  | 4 | 5 => [37]
  | 8 => statementFirst
  | 9 => exprFirst
  | 10 => [1, 32]
  | _ => []

/-- The symbols that an alternative of a decision can start with; none where it leaves a loop or
does not matter. -/
def opening : Int → Int → Option (List Int)
  | 0, 1 => some [1, 3]
  | 4, 1 => some [37]
  | 8, 1 => some [37]
  | 8, 7 => some statementFirst
  | 8, 8 => some [1, 32]
  | 8, _ => some exprFirst
  | 10, 1 => some [21, 22]
  | 10, 2 => some [23, 24]
  | 10, 3 => some [25]
  | 10, _ => some [26, 27, 28, 29, 30, 31]
  | _, _ => none

/-- The levels that reading a phrase of a rule can take before the next token is taken. -/
def phraseLevels : Nat → Nat
  | 0 => 55
  | 1 => 45
  | 2 => 40
  | 3 => 35
  | 4 => 14
  | 5 => 10
  | 6 => 20
  | 7 => 30
  | 8 => 22
  | 9 => 15
  | _ => 8

def levels : Nat := 64

end Grammar

namespace Part

def idles (y : Int) : Part → Bool
  | .optional _ first _ | .many _ _ first _ => !first.contains y
  | _ => false

mutual

/-- Whether the part takes the symbol, if it stands before it. -/
def leads (y : Int) : Part → Bool
  | .token _ x => x == y
  | .operator _ xs => xs.contains y
  | .phrase _ rule _ => (Grammar.phraseFirst rule).contains y
  | .optional _ first ps | .many _ _ first ps => first.contains y && lead y ps
  | .manyPredicted .. => false

/-- Whether the parts take the symbol, if they stand before it. -/
def lead (y : Int) : List Part → Bool
  | [] => false
  | p :: ps => p.leads y || (p.idles y && lead y ps)

end

/-- Whether parts take each of the symbols, none of which is the end. -/
def startsWith (ps : List Part) (xs : List Int) : Bool :=
  xs.all fun y => y != Symbol.eof && lead y ps

/-- Whether a part takes a token or reports an error. -/
def isFirm : Part → Bool
  | .token .. | .operator .. | .phrase .. => true
  | _ => false

mutual

def fits : Part → Nat → Bool
  | .token .., b | .operator .., b => decide (1 ≤ b)
  | .phrase _ rule _, b => decide (Grammar.phraseLevels rule < b)
  | .optional _ first ps, b => decide (1 ≤ b) && startsWith ps first && fitsLed ps (b - 1)
  | .many _ _ first ps, b => decide (2 ≤ b) && startsWith ps first && fitsLed ps (b - 2)
  | .manyPredicted _ _ d ps, b =>
    decide (2 ≤ b) && (Grammar.opening d 1).any (startsWith ps) && fitsLed ps (b - 2)

def fit : List Part → Nat → Bool
  | [], b => decide (1 ≤ b)
  | p :: ps, b => decide (1 ≤ b) && p.fits (b - 1) && fit ps (b - 1)

/-- Whether parts can be read at so many levels if the present token is one they start with. -/
def fitsLed : List Part → Nat → Bool
  | [], b => decide (1 ≤ b)
  | p :: ps, b =>
    decide (1 ≤ b) && p.fits (b - 1) && (fit ps (b - 1) || (p.isFirm && fit ps Grammar.levels))

end

end Part

/-- Whether the levels of a rule are enough for its body. -/
def Rule.fits (n : Nat) (r : Rule) : Bool :=
  let b := Grammar.phraseLevels n
  decide (4 ≤ b) && decide (b < Grammar.levels) && match r.body with
  | .sequence ps => Part.fit ps (b - 1) && Part.startsWith ps (Grammar.phraseFirst n)
  | .choice _ d as => as.zipIdx.all fun (a, k) =>
    Part.fitsLed a.parts (b - 1) && ((Grammar.opening d (k + 1)).any (Part.startsWith a.parts))
  | .recursion body =>
    (body.operands.all fun a => Part.fitsLed a.parts (b - 2) && Part.startsWith a.parts a.first)
      && (body.suffixes.zipIdx.all fun (s, k) => Part.fitsLed s.parts (b - 3)
        && ((Grammar.opening body.choiceDecision (k + 1)).any (Part.startsWith s.parts)))
      && (Grammar.phraseFirst n).all fun y => body.operands.any (·.first.contains y)

theorem Grammar.fits_rules {n : Nat} {r : Rule} (h : rules[n]? = some r) : r.fits n = true := by
  match n, h with
  | 0, h | 1, h | 2, h | 3, h | 4, h | 5, h | 6, h | 7, h | 8, h | 9, h | 10, h =>
    cases h
    decide

end Throbac
