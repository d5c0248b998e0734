import Throbac.Vocabulary

/-!
# Character streams

A text with a position. The position may be moved anywhere at or before the end, below zero
included; reading outside the text gives the end-of-input symbol.
-/
namespace Throbac

abbrev Chars := Array Char

namespace Chars

def ofString (s : String) : Chars := s.toList.toArray

def toString (cs : Chars) : String := String.ofList cs.toList

/-- The text from `first` through `last`. Negative ends count from the end of the text. -/
def text (cs : Chars) (first last : Int) : String :=
  let last := if last ≥ cs.size then (cs.size : Int) - 1 else last
  if first ≥ cs.size then "" else Chars.toString (Sequence.arrayCut cs first (last + 1))

end Chars

structure CharStream where
  chars : Chars := #[]
  index : Int := 0
  deriving Inhabited, Repr

namespace CharStream

def ofString (s : String) : CharStream := ⟨Chars.ofString s, 0⟩

def size (s : CharStream) : Nat := s.chars.size

def symbolAt (s : CharStream) (pos : Int) : Int :=
  if pos < 0 then Symbol.eof
  else match s.chars[pos.toNat]? with
    | some c => c.toNat
    | none => Symbol.eof

/-- The symbol `k` places ahead, or `-k` places behind; place 0 is no place. -/
def lookAhead (s : CharStream) (k : Int) : Int :=
  if k = 0 then 0
  else s.symbolAt (s.index + (if k < 0 then k + 1 else k) - 1)

def next (s : CharStream) : Int := s.symbolAt s.index

def consume (s : CharStream) : Except Fault CharStream :=
  if s.index ≥ s.size then .error .noCharacterLeft
  else .ok { s with index := s.index + 1 }

/-- Moves to a position; forward no further than the end. -/
def seek (s : CharStream) (i : Int) : CharStream :=
  if i ≤ s.index then { s with index := i } else { s with index := min i s.size }

def reset (s : CharStream) : CharStream := { s with index := 0 }

def text (s : CharStream) (first last : Int) : String := s.chars.text first last

end CharStream

end Throbac
