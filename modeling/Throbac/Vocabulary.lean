import Throbac.Text.Sequence

/-!
# Names of symbols

Symbols of a grammar are numbers. A vocabulary gives them names: first a literal, then a symbolic
one. Three numbers are fixed for every grammar.
-/
namespace Throbac

namespace Symbol

def eof : Int := -1

/-- The end of a rule reached without matching; never an input symbol. -/
def epsilon : Int := -2

def invalid : Int := 0

def minUser : Int := 1

def maxChar : Int := 0x10FFFF

end Symbol

/-- The two name tables of a grammar, indexed by symbol. -/
structure Vocabulary where
  literal : Array String := #[]
  symbolic : Array String := #[]
  deriving Inhabited, Repr

namespace Vocabulary

def unnamed : String := "<INVALID>"

/-- The name under which a symbol is shown. A symbol below the fixed ones counts from the end of
the tables. -/
def display (v : Vocabulary) (a : Int) : Except Fault String := do
  if a = Symbol.eof then return "<EOF>"
  if a = Symbol.epsilon then return "<EPSILON>"
  if a < v.literal.size then
    let name ← Sequence.arrayAt v.literal a
    if name ≠ unnamed then return name
  if a < v.symbolic.size then Sequence.arrayAt v.symbolic a
  else return "<UNKNOWN>"

end Vocabulary

end Throbac
