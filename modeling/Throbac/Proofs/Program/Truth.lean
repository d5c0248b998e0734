import Mathlib.Algebra.Group.Nat.Even
import Throbac.Proofs.Program.Value

/-!
# Truth values in C

A condition is a truth value or a comparison of two numbers, with parentheses and `NI` around it. `NI`
is written as a minus, and a minus changes neither zero nor what is not zero: to C a condition holds
if what stands inside all its `NI` holds. That is what the condition says if `NI` occurs an even number
of times, and the opposite otherwise.
-/
namespace Throbac

def CompareOp.test : CompareOp → Int → Int → Bool
  | idem, a, b => a = b
  | niIdem, a, b => a ≠ b
  | infra, a, b => a < b
  | infraIdem, a, b => a ≤ b
  | supra, a, b => b < a
  | supraIdem, a, b => b ≤ a

namespace Expr

mutual

theorem Throughout.imp {p q : Expr → Prop} (h : ∀ e, p e → q e) :
    (e : Expr) → e.Throughout p → e.Throughout q
  | .number _, he | .string _, he | .bool _, he | .name _, he => h _ he
  | .parens e, he | .negation _ e, he => ⟨h _ he.1, Throughout.imp h e he.2⟩
  | .mulDiv _ l r, he | .addSub _ l r, he | .concatenation l r, he | .compare _ l r, he =>
    ⟨h _ he.1, Throughout.imp h l he.2.1, Throughout.imp h r he.2.2⟩
  | .call _ es, he => ⟨h _ he.1, ThroughoutAll.imp h es he.2⟩

theorem ThroughoutAll.imp {p q : Expr → Prop} (h : ∀ e, p e → q e) :
    (es : List Expr) → ThroughoutAll p es → ThroughoutAll q es
  | [], _ => trivial
  | e :: es, he => ⟨Throughout.imp h e he.1, ThroughoutAll.imp h es he.2⟩

end

section Condition

variable (m : C.Interpretation)

/-- What a condition says, with `NI` for its negation. -/
def holds : Expr → Bool
  | .bool b => b
  | .compare op l r => op.test (l.value m) (r.value m)
  | .parens e => e.holds
  | .negation _ e => !e.holds
  | _ => false

end Condition

/-- A condition without its parentheses and its negations. -/
def bare : Expr → Expr
  | .parens e | .negation _ e => e.bare
  | e => e

variable {m : C.Interpretation}

end Expr

namespace Expr

end Expr

end Throbac
