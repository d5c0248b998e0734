import Throbac.Fault
import Throbac.Text.Lines

/-!
# Numerals

A numeral lists its decimal digits as words between points. Leading zeros are allowed; the decimal
text of the value has none. Values of more than 4300 digits, leading zeros counted, are refused.
-/
namespace Throbac

abbrev Digit := Fin 10

namespace Digit

def words : List String := ["NIL", "I", "II", "III", "IV", "V", "VI", "VII", "VIII", "IX"]

def word (d : Digit) : String := words.getD d.val ""

def ofWord? (s : String) : Option Digit :=
  (List.finRange 10).find? fun d => word d == s

end Digit

structure Numeral where
  digits : List Digit
  deriving DecidableEq, Repr, Inhabited

namespace Numeral

def maxDigits : Nat := 4300

def text (n : Numeral) : String := "." ++ String.join (n.digits.map fun d => d.word ++ ".")

def ofText? (s : String) : Option Numeral :=
  let words := (Text.split '.' (Text.stripChar '.' s).toList).map String.ofList
  (words.mapM Digit.ofWord?).map Numeral.mk

def value (n : Numeral) : Nat := n.digits.foldl (fun v d => 10 * v + d.val) 0

def decimal (n : Numeral) : Except Fault String :=
  if n.digits.length > maxDigits then .error (.tooManyDigits n.digits.length)
  else .ok (toString n.value)

end Numeral

end Throbac
