import Throbac.Proofs.C.Expressions

/-!
# Values of C expressions

The value of a C expression over integers of a limited range. It has none where a constant or a
result does not fit, where a number is divided by zero, and where a text is involved.
-/
namespace Throbac.C

/-- What variables and functions stand for, and the least and the greatest number there is. -/
structure Interpretation where
  named : List Char → Int
  called : List Char → List Int → Int
  least : Int
  greatest : Int

namespace Interpretation

def Fits (m : Interpretation) (v : Int) : Prop := m.least ≤ v ∧ v ≤ m.greatest

instance (m : Interpretation) (v : Int) : Decidable (m.Fits v) :=
  inferInstanceAs (Decidable (_ ∧ _))

def checked (m : Interpretation) (v : Int) : Option Int := if m.Fits v then some v else none

theorem checked_of_fits {m : Interpretation} {v : Int} (h : m.Fits v) : m.checked v = some v :=
  if_pos h

end Interpretation

/-- The number of a constant; one that starts with a zero is octal. -/
def constant (s : List Char) : Nat :=
  Nat.ofDigitChars (if s.head? = some '0' then 8 else 10) s 0

theorem head_toDigits (n : Nat) (h : 0 < n) : (Nat.toDigits 10 n).head? ≠ some '0' := by
  induction n using Nat.strongRecOn with
  | ind n ih =>
    by_cases hn : n < 10
    · have hdigit : ∀ d < 10, 0 < d → [d.digitChar].head? ≠ some '0' := by decide
      rw [Nat.toDigits_of_lt_base hn]
      exact hdigit n hn h
    · obtain ⟨c, w, hw⟩ := List.exists_cons_of_ne_nil (Nat.toDigits_ne_nil (n := n / 10) (b := 10))
      have hhead := ih (n / 10) (by omega) (by omega)
      rw [Nat.toDigits_of_base_le (by decide) (by omega), hw]
      rwa [hw] at hhead

theorem constant_toString (n : Nat) : constant (toString n).toList = n := by
  rw [Nat.toString_eq_repr, Nat.repr_eq_ofList_toDigits, String.toList_ofList, constant]
  rcases Nat.eq_zero_or_pos n with rfl | h
  · decide
  · rw [if_neg (head_toDigits n h), Nat.ofDigitChars_toDigits (by decide) (by decide)]

def Operator.apply (m : Interpretation) (op : Operator) (a b : Int) : Option Int :=
  match op with
  | times => m.checked (a * b)
  | divided => if b = 0 then none else m.checked (a.tdiv b)
  | plus => m.checked (a + b)
  | minus => m.checked (a - b)
  | less => some (if a < b then 1 else 0)
  | atMost => some (if a ≤ b then 1 else 0)
  | greater => some (if b < a then 1 else 0)
  | atLeast => some (if b ≤ a then 1 else 0)
  | equal => some (if a = b then 1 else 0)
  | unequal => some (if a = b then 0 else 1)

section

variable (m : Interpretation)

mutual

def Expression.value : Expression → Option Int
  | .name s => m.checked (m.named s)
  | .number s => m.checked (constant s)
  | .string _ => none
  | .parens e => e.value
  | .minus e => e.value.bind fun a => m.checked (-a)
  | .binary op l r => l.value.bind fun a => r.value.bind fun b => op.apply m a b
  | .call f es => (Expression.valueAll es).bind fun vs => m.checked (m.called f vs)

def Expression.valueAll : List Expression → Option (List Int)
  | [] => some []
  | e :: es => e.value.bind fun v => (valueAll es).map (v :: ·)

end

end

end Throbac.C
