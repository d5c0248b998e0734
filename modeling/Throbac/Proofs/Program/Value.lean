import Throbac.Proofs.C.Values
import Throbac.Proofs.Program.Comparison

/-!
# Values of expressions

Expressions of numbers have a value that does not know of any range. As long as every part of such an
expression stays within the range of C and nothing is divided by zero, C computes the same value from
the text of the expression.
-/
namespace Throbac

namespace Expr

/-- Whether the expression is one of the forms that make numbers from numbers. -/
def isArithmetic : Expr → Bool
  | .string _ | .concatenation .. | .compare .. | .negation .ni _ => false
  | _ => true

/-- No texts, joinings, comparisons or `NI` anywhere in the expression. -/
abbrev Arithmetic : Expr → Prop := Throughout fun e => e.isArithmetic = true

section Value

variable (m : C.Interpretation)

mutual

/-- The value of an expression of numbers. Division cuts off what is behind the point. What is not a
number counts as zero. -/
def value : Expr → Int
  | .number n => n.value
  | .bool b => if b then 1 else 0
  | .name id => m.named id.toList
  | .parens e => e.value
  | .negation _ e => -e.value
  | .mulDiv .congero l r => l.value * r.value
  | .mulDiv .partio l r => l.value.tdiv r.value
  | .addSub .addo l r => l.value + r.value
  | .addSub .subtraho l r => l.value - r.value
  | .call f es => m.called f.toList (valueAll es)
  | .string _ | .concatenation .. | .compare .. => 0

def valueAll : List Expr → List Int
  | [] => []
  | e :: es => e.value :: valueAll es

end

def DivisorNonzero : Expr → Prop
  | .mulDiv .partio _ r => r.value m ≠ 0
  | _ => True

/-- Every part of the expression has a value in range, and nothing is divided by zero. -/
abbrev Defined : Expr → Prop := Throughout fun e => m.Fits (e.value m) ∧ e.DivisorNonzero m

abbrev DefinedAll : List Expr → Prop :=
  ThroughoutAll fun e => m.Fits (e.value m) ∧ e.DivisorNonzero m

end Value

variable {m : C.Interpretation}

mutual

theorem value_image : (e : Expr) → e.Arithmetic → e.Defined m → e.image.value m = some (e.value m)
  | .number n, _, hd => by
    rw [image, imageBy, C.Expression.value, C.constant_toString]
    exact C.Interpretation.checked_of_fits hd.1
  | .bool b, _, hd => by
    have hconstant : (C.constant (truth b) : Int) = if b then 1 else 0 := by cases b <;> decide
    rw [image, imageBy, C.Expression.value, hconstant]
    exact C.Interpretation.checked_of_fits hd.1
  | .name id, _, hd => C.Interpretation.checked_of_fits hd.1
  | .parens e, ha, hd => value_image e ha.2 hd.2
  | .negation .negans e, ha, hd => by
    rw [image, imageBy, C.Expression.value, C.Expression.value, value_image e ha.2 hd.2]
    exact C.Interpretation.checked_of_fits hd.1.1
  | .mulDiv op l r, ha, hd => by
    rw [image, imageBy, C.Expression.value, value_image l ha.2.1 hd.2.1, value_image r ha.2.2 hd.2.2]
    cases op with
    | congero => exact C.Interpretation.checked_of_fits hd.1.1
    | partio =>
      rw [Option.bind_some, Option.bind_some]
      exact (if_neg hd.1.2).trans (C.Interpretation.checked_of_fits hd.1.1)
  | .addSub op l r, ha, hd => by
    rw [image, imageBy, C.Expression.value, value_image l ha.2.1 hd.2.1, value_image r ha.2.2 hd.2.2]
    cases op <;> exact C.Interpretation.checked_of_fits hd.1.1
  | .call f es, ha, hd => by
    rw [image, imageBy, C.Expression.value, valueAll_imageAll es ha.2 hd.2]
    exact C.Interpretation.checked_of_fits hd.1.1

theorem valueAll_imageAll : (es : List Expr) → ThroughoutAll (fun e => e.isArithmetic = true) es →
    DefinedAll m es → C.Expression.valueAll m (imageAll es) = some (valueAll m es)
  | [], _, _ => rfl
  | e :: es, ha, hd => by
    rw [imageAll, imageAllBy, C.Expression.valueAll, value_image e ha.1 hd.1, valueAll_imageAll es ha.2 hd.2]
    rfl

end

/-- The text of a canonical expression without comparisons is read by C as its image and nothing else,
and C computes the value of the expression from it. -/
theorem reads_toC_iff_image {e : Expr} (hcanonical : e.Canonical) (hfree : e.ComparisonFree)
    (hspelled : e.Spelled) (hshort : e.Short) :
    ∃ text, e.toC = .ok text ∧ (∀ t, C.Reads text t ↔ t = e.image) ∧
      ∀ t m, C.Reads text t → e.Arithmetic → e.Defined m → t.value m = some (e.value m) := by
  have hreads : ∀ t, C.Reads (String.ofList e.written) t ↔ t = e.image := by
    intro t
    rw [reads_written_iff hcanonical hspelled, reading, imageBy_of_comparisonFree _ e hfree]
  refine ⟨_, e.toC_of_short hshort, hreads, fun t m ht harithmetic hdefined => ?_⟩
  rw [(hreads t).1 ht]
  exact value_image e harithmetic hdefined

/-- Seven divided by minus two, with a product added: the quotient is cut off towards zero. -/
theorem reads_toC_quotient : ∃ text,
    (Expr.addSub .addo (.mulDiv .congero (.name "a") (.name "b"))
      (.mulDiv .partio (.number ⟨[7]⟩) (.negation .negans (.number ⟨[2]⟩)))).toC = .ok text ∧
    ∀ t, C.Reads text t → t.value ⟨fun _ => 3, fun _ _ => 0, -32768, 32767⟩ = some 6 := by
  obtain ⟨text, htext, _, hvalue⟩ := reads_toC_iff_image (e := .addSub .addo
    (.mulDiv .congero (.name "a") (.name "b"))
    (.mulDiv .partio (.number ⟨[7]⟩) (.negation .negans (.number ⟨[2]⟩))))
    (by simp [Throughout, Grouped, tightness]) (by simp [Throughout, isCompare])
    (by simp only [Every]; decide) (by simp only [Every]; decide)
  refine ⟨text, htext, fun t ht => hvalue t _ ht ?_ ?_⟩
  · simp [Throughout, isArithmetic]
  · simp only [Throughout, value, DivisorNonzero]
    decide

end Expr

end Throbac
