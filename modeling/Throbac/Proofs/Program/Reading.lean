import Throbac.Proofs.Program.Image
import Throbac.Proofs.Lines

/-!
# Reading what is written for an expression

The text of an expression can be read under any rule for the levels of operators that agrees with C
on products and sums. What such a rule makes of comparisons is left to it: C lets the order relations
bind tighter than equality, while programs have all comparisons on one level.
-/
namespace Throbac

namespace Expr

/-- How tightly an expression holds together: comparisons least, then joined texts, sums and products.
What is left is not taken apart by an operator beside it. -/
def tightness : Expr → Nat
  | .compare .. => 1
  | .concatenation .. => 2
  | .addSub .. => 3
  | .mulDiv .. => 4
  | _ => 5

/-- The operands of an expression hold together well enough to stand where they are, if every binary
operator groups to the left. -/
def Grouped (e : Expr) : Prop :=
  match e with
  | .negation _ x => 5 ≤ x.tightness
  | .mulDiv _ l r | .addSub _ l r | .concatenation l r | .compare _ l r =>
    e.tightness ≤ l.tightness ∧ e.tightness < r.tightness
  | _ => True

section Throughout

variable (p : Expr → Prop)

mutual

/-- The property holds of the expression and of everything in it. -/
def Throughout : Expr → Prop
  | e@(.number _) | e@(.string _) | e@(.bool _) | e@(.name _) => p e
  | e@(.parens x) | e@(.negation _ x) => p e ∧ x.Throughout
  | e@(.mulDiv _ l r) | e@(.addSub _ l r) | e@(.concatenation l r) | e@(.compare _ l r) =>
    p e ∧ l.Throughout ∧ r.Throughout
  | e@(.call _ es) => p e ∧ ThroughoutAll es

def ThroughoutAll : List Expr → Prop
  | [] => True
  | e :: es => e.Throughout ∧ ThroughoutAll es

end

end Throughout

/-- Operators stand in the order in which they bind. -/
abbrev Canonical : Expr → Prop := Throughout Grouped

abbrev CanonicalAll : List Expr → Prop := ThroughoutAll Grouped

def isCompare : Expr → Bool
  | .compare .. => true
  | _ => false

/-- No comparison stands anywhere in the expression. -/
abbrev ComparisonFree : Expr → Prop := Throughout fun e => e.isCompare = false

abbrev ComparisonFreeAll : List Expr → Prop := ThroughoutAll fun e => e.isCompare = false

section Image

variable (join : CompareOp → C.Expression → C.Expression → C.Expression)

mutual

/-- The C expression that is meant by an expression, with comparisons put together by `join`. -/
def imageBy : Expr → C.Expression
  | .number n => .number (toString n.value).toList
  | .string s => .string (escaped s)
  | .bool b => .number (truth b)
  | .name id => .name id.toList
  | .parens e => .parens e.imageBy
  | .negation _ e => .parens (.minus e.imageBy)
  | .mulDiv op l r => .binary op.operator l.imageBy r.imageBy
  | .addSub op l r => .binary op.operator l.imageBy r.imageBy
  | .concatenation l r => .call joinName [l.imageBy, r.imageBy]
  | .compare op l r => join op l.imageBy r.imageBy
  | .call f es => .call f.toList (imageAllBy es)

def imageAllBy : List Expr → List C.Expression
  | [] => []
  | e :: es => e.imageBy :: imageAllBy es

end

end Image

/-- The C expression with the structure of the expression itself. -/
abbrev image : Expr → C.Expression := imageBy fun op => .binary op.operator

abbrev imageAll : List Expr → List C.Expression := imageAllBy fun op => .binary op.operator

mutual

theorem imageBy_of_comparisonFree (join : CompareOp → C.Expression → C.Expression → C.Expression) :
    (e : Expr) → e.ComparisonFree → e.imageBy join = e.image
  | .number _, _ | .string _, _ | .bool _, _ | .name _, _ => rfl
  | .parens e, h | .negation _ e, h => by
    rw [imageBy, imageBy_of_comparisonFree join e h.2]
    rfl
  | .mulDiv _ l r, h | .addSub _ l r, h | .concatenation l r, h => by
    rw [imageBy, imageBy_of_comparisonFree join l h.2.1, imageBy_of_comparisonFree join r h.2.2]
    rfl
  | .call f es, h => by
    rw [imageBy, imageAllBy_of_comparisonFree join es h.2]
    rfl

theorem imageAllBy_of_comparisonFree
    (join : CompareOp → C.Expression → C.Expression → C.Expression) :
    (es : List Expr) → ComparisonFreeAll es → imageAllBy join es = imageAll es
  | [], _ => rfl
  | e :: es, h => by
    rw [imageAllBy, imageBy_of_comparisonFree join e h.1, imageAllBy_of_comparisonFree join es h.2]
    rfl

end

/-- The level of the outermost C operator; a joining is a call. -/
def rank : Expr → Nat
  | .compare .. => 1
  | .addSub .. => 3
  | .mulDiv .. => 4
  | _ => C.unaryLevel

/-- What holds together more tightly than a comparison is as tight in C, and products and sums are
where they are. -/
theorem le_rank (e : Expr) : e.tightness ≤ e.rank ∧ (1 < e.tightness → 3 ≤ e.rank) := by
  cases e <;> simp [tightness, rank, C.unaryLevel]

end Expr

/-- A rule for the levels of C operators, with the way in which it puts comparisons together. -/
structure Grouping where
  level : C.Operator → Nat
  join : CompareOp → C.Expression → C.Expression → C.Expression
  level_lt : ∀ op, level op < C.unaryLevel
  level_mul : ∀ op : MulOp, level op.operator = 4
  level_add : ∀ op : AddOp, level op.operator = 3
  derives_join : ∀ (op : CompareOp) {ts us l r}, C.Derives level 1 ts l → C.Derives level 3 us r →
    C.Derives level 1 (ts ++ .mark op.operator.mark :: us) (join op l r)

namespace Expr

mutual

theorem derives_imageBy (g : Grouping) :
    (e : Expr) → e.Canonical → C.Derives g.level e.rank e.lexemes (e.imageBy g.join)
  | .number _, _ | .bool _, _ => .number
  | .string _, _ => .string
  | .name _, _ => .name
  | .parens e, h => .parens ((derives_imageBy g e h.2).loosen (Nat.zero_le _))
  | .negation _ e, h => by
    have he := (derives_imageBy g e h.2).loosen (Nat.le_trans h.1 e.le_rank.1)
    exact .parens (.minus (Nat.zero_le _) he)
  | .mulDiv op l r, ⟨⟨hl, hr⟩, hcl, hcr⟩ => by
    have hop := g.level_mul op
    refine .binary (Nat.le_of_eq hop.symm) ?_ ?_ <;> rw [hop]
    · exact (derives_imageBy g l hcl).loosen (Nat.le_trans hl l.le_rank.1)
    · exact (derives_imageBy g r hcr).loosen (Nat.le_trans hr r.le_rank.1)
  | .addSub op l r, ⟨⟨hl, hr⟩, hcl, hcr⟩ => by
    have hop := g.level_add op
    refine .binary (Nat.le_of_eq hop.symm) ?_ ?_ <;> rw [hop]
    · exact (derives_imageBy g l hcl).loosen (Nat.le_trans hl l.le_rank.1)
    · exact (derives_imageBy g r hcr).loosen (Nat.le_trans hr r.le_rank.1)
  | .concatenation l r, h => by
    refine .call (.more ?_ (.one ?_))
    · exact (derives_imageBy g l h.2.1).loosen (Nat.zero_le _)
    · exact (derives_imageBy g r h.2.2).loosen (Nat.zero_le _)
  | .compare op l r, ⟨⟨hl, hr⟩, hcl, hcr⟩ => by
    refine g.derives_join op ?_ ?_
    · exact (derives_imageBy g l hcl).loosen (Nat.le_trans hl l.le_rank.1)
    · exact (derives_imageBy g r hcr).loosen (r.le_rank.2 hr)
  | .call f [], _ => .bareCall
  | .call f (e :: es), h => .call (derivesAll_imageAllBy g (e :: es) (List.cons_ne_nil e es) h.2)

theorem derivesAll_imageAllBy (g : Grouping) : (es : List Expr) → es ≠ [] → CanonicalAll es →
    C.DerivesAll g.level (lexemesAll es) (imageAllBy g.join es)
  | [e], _, h => .one ((derives_imageBy g e h.1).loosen (Nat.zero_le _))
  | e :: e' :: es, _, h =>
    .more ((derives_imageBy g e h.1).loosen (Nat.zero_le _))
      (derivesAll_imageAllBy g (e' :: es) (List.cons_ne_nil e' es) h.2)

end

end Expr

namespace Expr

/-- Whether the character occurs in no text of an expression. -/
def isForeign (c : Char) : Bool :=
  !c.isAlphanum && !(['"', '\\', '.', '(', ')', ' ', '_', ',', '*', '/', '+', '-', '<', '=', '>', '!'].contains c)

variable {c : Char}

theorem isAlphanum_of_isUpper (h : c.isUpper = true) : c.isAlphanum = true := by
  rw [show c.isAlphanum = (c.isUpper || c.isLower || c.isDigit) from rfl, h]
  rfl

theorem isAlphanum_of_isLower (h : c.isLower = true) : c.isAlphanum = true := by
  rw [show c.isAlphanum = (c.isUpper || c.isLower || c.isDigit) from rfl, h, Bool.or_true]
  rfl

theorem not_mem_of_alphanum (hc : isForeign c = true) {w : List Char} (h : ∀ d ∈ w, d.isAlphanum = true) :
    c ∉ w := by
  intro hw
  simp [isForeign, h c hw] at hc

theorem ne_of_isForeign (hc : isForeign c = true) {d : Char} (hd : isForeign d = false) : c ≠ d := by
  rintro rfl
  exact absurd (hc.symm.trans hd) (by decide)

theorem not_mem_of_any (hc : isForeign c = true) {w : List Char} (h : w.any isForeign = false) : c ∉ w := by
  intro hw
  exact List.any_eq_false.1 h c hw hc

theorem not_mem_mark (hc : isForeign c = true) (op : C.Operator) : c ∉ op.mark :=
  not_mem_of_any hc (by cases op <;> decide +kernel)

mutual

theorem not_mem_written (hc : isForeign c = true) : (e : Expr) → e.Spelled → c ∉ e.written
  | .number n, _ => by
    obtain ⟨d, w, hw, hdigit⟩ := C.digits_cons n.value
    rw [written, hw]
    exact not_mem_of_alphanum hc fun d hd => by simp [Char.isAlphanum, hdigit d hd]
  | .string s, h => by
    have htext : ∀ d ∈ escaped s, isForeign d = false := by
      intro d hd
      obtain ⟨b, hb, hd⟩ := List.mem_flatMap.1 hd
      split at hd
      · have hbreak : ['\\', 'n'].any isForeign = false := by decide +kernel
        exact Bool.eq_false_iff.2 (List.any_eq_false.1 hbreak d hd)
      · rw [List.mem_singleton.1 hd]
        rcases h b hb with hb | rfl | rfl
        · simp [isForeign, isAlphanum_of_isUpper hb]
        · decide
        · decide
    have hquote : c ≠ '"' := ne_of_isForeign hc (by decide)
    simp only [written, List.mem_cons, List.mem_append, List.not_mem_nil, or_false, not_or]
    exact ⟨hquote, fun hd => ne_of_isForeign hc (htext c hd) rfl, hquote⟩
  | .bool b, _ => not_mem_of_any hc (by cases b <;> decide +kernel)
  | .name id, h => not_mem_of_alphanum hc fun d hd => isAlphanum_of_isLower (h.2 d hd)
  | .parens e, h | .negation _ e, h => by
    have he := not_mem_written hc e h
    have hopen : c ≠ '(' := ne_of_isForeign hc (by decide)
    have hclose : c ≠ ')' := ne_of_isForeign hc (by decide)
    have hminus : c ≠ '-' := ne_of_isForeign hc (by decide)
    simp [written, he, hopen, hclose, hminus]
  | .mulDiv op l r, h | .addSub op l r, h | .compare op l r, h => by
    have hl := not_mem_written hc l h.1
    have hr := not_mem_written hc r h.2
    have hblank : c ≠ ' ' := ne_of_isForeign hc (by decide)
    simp [written, hl, hr, hblank, not_mem_mark hc]
  | .concatenation l r, h => by
    have hl := not_mem_written hc l h.1
    have hr := not_mem_written hc r h.2
    have hjoin : c ∉ joinName ++ ['(', ',', ')'] := not_mem_of_any hc (by decide +kernel)
    simp only [List.mem_append, List.mem_cons, List.not_mem_nil, or_false, not_or] at hjoin
    simp [written, hl, hr, hjoin]
  | .call f es, h => by
    have hes := not_mem_writtenAll hc es h.2
    have hf : c ∉ f.toList :=
      not_mem_of_alphanum hc fun d hd => isAlphanum_of_isLower (h.1.2 d hd)
    have hopen : c ≠ '(' := ne_of_isForeign hc (by decide)
    have hclose : c ≠ ')' := ne_of_isForeign hc (by decide)
    simp [written, hes, hf, hopen, hclose]

theorem not_mem_writtenAll (hc : isForeign c = true) :
    (es : List Expr) → SpelledAll es → c ∉ writtenAll es
  | [], _ => by simp [writtenAll]
  | [e], h => not_mem_written hc e h.1
  | e :: e' :: es, h => by
    have he := not_mem_written hc e h.1
    have hes := not_mem_writtenAll hc (e' :: es) h.2
    have hcomma : c ≠ ',' := ne_of_isForeign hc (by decide)
    simp [writtenAll, he, hes, hcomma]

end

end Expr

namespace C

theorem lexemes_written {e : Expr} (h : e.Spelled) : lexemes e.written = e.lexemes := by
  rw [lexemes, Text.split_of_not_mem (e.not_mem_written (by decide) h), List.flatMap_singleton]
  have hscan := e.scan_written h breaks_nil
  rwa [List.append_nil, scan_nil, List.append_nil] at hscan

end C

end Throbac
