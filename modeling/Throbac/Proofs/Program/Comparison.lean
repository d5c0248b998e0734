import Throbac.Proofs.Program.Reading

/-!
# Comparisons in C

Programs have all six comparisons on one level, C has two: the order relations bind tighter than
equality. No parentheses are written around a comparison, so a chain of them is read in C with its
order relations first. The chain keeps its grouping just as long as no order relation comes after an
equality.
-/
namespace Throbac

namespace CompareOp

/-- Whether the comparison asks if two values are the same. -/
def isEquality : CompareOp → Bool
  | idem | niIdem => true
  | infra | infraIdem | supra | supraIdem => false

theorem level_eq_one {op : CompareOp} (h : op.isEquality = true) : op.operator.level = 1 := by
  cases op <;> first | rfl | cases h

theorem level_eq_two {op : CompareOp} (h : op.isEquality = false) : op.operator.level = 2 := by
  cases op <;> first | rfl | cases h

/-- How C puts a comparison behind what it has read: an order relation takes the last operand of an
equality for itself. -/
def attach (op : CompareOp) (l r : C.Expression) : C.Expression :=
  match l with
  | .binary o a b =>
    if op.isEquality = false ∧ o.level = 1 then .binary o a (.binary op.operator b r)
    else .binary op.operator (.binary o a b) r
  | l => .binary op.operator l r

end CompareOp

namespace C

theorem Derives.tighten {ts : List Lexeme} {e : Expression} (h : Derives Operator.level 1 ts e)
    (hroot : e.root Operator.level ≠ 1) : Derives Operator.level 2 ts e := by
  cases h with
  | name => exact .name
  | number => exact .number
  | string => exact .string
  | parens h => exact .parens h
  | minus _ h => exact .minus (by decide) h
  | binary hn hl hr => exact .binary (Nat.lt_of_le_of_ne hn (Ne.symm hroot)) hl hr
  | bareCall => exact .bareCall
  | call h => exact .call h

theorem derives_attach (op : CompareOp) {ts us : List Lexeme} {l r : Expression}
    (hl : Derives Operator.level 1 ts l) (hr : Derives Operator.level 3 us r) :
    Derives Operator.level 1 (ts ++ .mark op.operator.mark :: us) (op.attach l r) := by
  have hplain : op.isEquality = true ∨ l.root Operator.level ≠ 1 →
      Derives Operator.level 1 (ts ++ .mark op.operator.mark :: us) (.binary op.operator l r) := by
    intro h
    cases hop : op.isEquality with
    | true =>
      have hlevel := CompareOp.level_eq_one hop
      exact .binary (Nat.le_of_eq hlevel.symm) (hlevel ▸ hl) (hr.loosen (by omega))
    | false =>
      have hlevel := CompareOp.level_eq_two hop
      have hroot := h.resolve_left (by simp [hop])
      exact .binary (by omega) (hlevel ▸ hl.tighten hroot) (hr.loosen (by omega))
  cases l with
  | binary o a b =>
    rw [CompareOp.attach]
    split
    · next h =>
      -- the order relation is read together with the operand to the right of the equality
      have hlevel := CompareOp.level_eq_two h.1
      cases hl with
      | binary ho ha hb =>
        rw [List.append_assoc, List.cons_append]
        refine .binary ho ha (.binary ?_ ?_ ?_)
        · omega
        · exact hb.loosen (by omega)
        · exact hr.loosen (by omega)
    · next h => exact hplain (by
        cases hop : op.isEquality with
        | true => exact .inl rfl
        | false => exact .inr fun ho => h ⟨hop, ho⟩)
  | _ => exact hplain (.inr (by simp [Expression.root, unaryLevel]))

end C

namespace Grouping

def c : Grouping where
  level := C.Operator.level
  join := CompareOp.attach
  level_lt := C.Operator.level_lt
  level_mul op := by cases op <;> rfl
  level_add op := by cases op <;> rfl
  derives_join := C.derives_attach

/-- The rule of programs: all comparisons are on one level. -/
def flat : Grouping where
  level
    | .times | .divided => 4
    | .plus | .minus => 3
    | _ => 1
  join op := .binary op.operator
  level_lt op := by cases op <;> decide
  level_mul op := by cases op <;> rfl
  level_add op := by cases op <;> rfl
  derives_join op _ _ _ _ hl hr := by
    cases op <;> exact .binary (Nat.le_refl 1) hl (hr.loosen (by decide))

end Grouping

namespace Expr

abbrev reading : Expr → C.Expression := imageBy CompareOp.attach

theorem reads_written_iff {e : Expr} (hcanonical : e.Canonical) (hspelled : e.Spelled)
    (t : C.Expression) : C.Reads (String.ofList e.written) t ↔ t = e.reading := by
  have hread : C.Reads (String.ofList e.written) e.reading := by
    rw [C.Reads, String.toList_ofList, C.lexemes_written hspelled]
    exact (derives_imageBy Grouping.c e hcanonical).loosen (Nat.zero_le _)
  constructor
  · intro h
    exact h.unique C.Operator.level_lt hread
  · rintro rfl
    exact hread

/-- Comparisons one after the other, grouped to the left. -/
def chain (e : Expr) (steps : List (CompareOp × Expr)) : Expr :=
  steps.foldl (fun l s => .compare s.1 l s.2) e

theorem chain_concat (e : Expr) (steps : List (CompareOp × Expr)) (op : CompareOp) (x : Expr) :
    chain e (steps ++ [(op, x)]) = .compare op (chain e steps) x := by
  rw [chain, List.foldl_append]
  rfl

/-- An operand of a chain of comparisons. -/
structure Operand (e : Expr) : Prop where
  canonical : e.Canonical
  spelled : e.Spelled
  short : e.Short
  /-- The operand is no comparison, unless in parentheses. -/
  notCompare : e.isCompare = false

theorem operand_name {id : String} (h : IsName id) : (Expr.name id).Operand :=
  ⟨trivial, h, trivial, rfl⟩

theorem one_le_tightness (e : Expr) : 1 ≤ e.tightness := by cases e <;> simp [tightness]

theorem one_lt_tightness {e : Expr} (h : e.isCompare = false) : 1 < e.tightness := by
  cases e <;> simp_all [tightness, isCompare]

theorem chain_sound {e : Expr} {steps : List (CompareOp × Expr)} (hcanonical : e.Canonical)
    (hspelled : e.Spelled) (hshort : e.Short) (hsteps : ∀ s ∈ steps, s.2.Operand) :
    (chain e steps).Canonical ∧ (chain e steps).Spelled ∧ (chain e steps).Short := by
  induction steps generalizing e with
  | nil => exact ⟨hcanonical, hspelled, hshort⟩
  | cons s steps ih =>
    obtain ⟨hs, hsteps⟩ := List.forall_mem_cons.1 hsteps
    have hgrouped : Grouped (.compare s.1 e s.2) := ⟨e.one_le_tightness, one_lt_tightness hs.notCompare⟩
    exact ih (e := .compare s.1 e s.2) ⟨hgrouped, hcanonical, hs.canonical⟩ ⟨hspelled, hs.spelled⟩
      ⟨hshort, hs.short⟩ hsteps

end Expr

namespace CompareOp

theorem attach_eq_binary_iff (op : CompareOp) (l r : C.Expression) :
    op.attach l r = .binary op.operator l r ↔
      op.isEquality = true ∨ l.root C.Operator.level ≠ 1 := by
  cases l with
  | binary o a b =>
    rw [attach]
    cases hop : op.isEquality with
    | true => simp
    | false =>
      have hlevel := level_eq_two hop
      by_cases ho : o.level = 1
      · have hne : o ≠ op.operator := fun h => by
          rw [h] at ho
          omega
        simp [ho, hne, C.Expression.root]
      · simp [ho, C.Expression.root]
  | _ => simp [attach, C.Expression.root, C.unaryLevel]

theorem root_attach_iff (op : CompareOp) (l r : C.Expression) :
    (op.attach l r).root C.Operator.level = 1 ↔
      op.isEquality = true ∨ l.root C.Operator.level = 1 := by
  have hop : op.operator.level = 1 ↔ op.isEquality = true := by cases op <;> decide
  cases l with
  | binary o a b =>
    rw [attach]
    split
    · next h => simp [C.Expression.root, h.2]
    · next h =>
      simp only [C.Expression.root, hop]
      cases ho : op.isEquality with
      | true => simp
      | false => simpa [ho] using h
  | _ => simp [attach, C.Expression.root, C.unaryLevel, hop]

end CompareOp

namespace Expr

theorem root_reading_of_not_compare {e : Expr} (h : e.isCompare = false) :
    e.reading.root C.Operator.level ≠ 1 := by
  cases e with
  | compare => cases h
  | mulDiv op | addSub op => cases op <;> simp [imageBy, C.Expression.root] <;> decide
  | _ => simp [imageBy, C.Expression.root, C.unaryLevel]

theorem root_reading_chain_iff (e : Expr) (steps : List (CompareOp × Expr)) :
    (chain e steps).reading.root C.Operator.level = 1 ↔
      e.reading.root C.Operator.level = 1 ∨ ∃ s ∈ steps, s.1.isEquality = true := by
  induction steps generalizing e with
  | nil => simp [chain]
  | cons s steps ih =>
    have hfirst : (compare s.1 e s.2).reading.root C.Operator.level = 1 ↔
        s.1.isEquality = true ∨ e.reading.root C.Operator.level = 1 :=
      CompareOp.root_attach_iff s.1 e.reading s.2.reading
    rw [show chain e (s :: steps) = chain (.compare s.1 e s.2) steps from rfl, ih, hfirst, or_assoc,
      or_left_comm]
    simp

/-- C reads the text of a chain as its last comparison, with what it reads for the rest of the chain
to the left, if and only if that comparison is an equality or there is no equality before it. -/
theorem reads_chain_iff {e x : Expr} {steps : List (CompareOp × Expr)} (op : CompareOp)
    (he : e.Operand) (hsteps : ∀ s ∈ steps, s.2.Operand) (hx : x.Operand) :
    ∃ text before last, (chain e (steps ++ [(op, x)])).toC = .ok text ∧
      (chain e steps).toC = .ok before ∧ x.toC = .ok last ∧
      ∃ l r, (∀ t, C.Reads before t ↔ t = l) ∧ (∀ t, C.Reads last t ↔ t = r) ∧
        (∀ t, C.Reads text t ↔ t = op.attach l r) ∧
        (C.Reads text (.binary op.operator l r) ↔
          op.isEquality = true ∨ ∀ s ∈ steps, s.1.isEquality = false) := by
  have hall : ∀ s ∈ steps ++ [(op, x)], s.2.Operand :=
    List.forall_mem_append.2 ⟨hsteps, List.forall_mem_singleton.2 hx⟩
  obtain ⟨hcanonical, hspelled, hshort⟩ := chain_sound he.canonical he.spelled he.short hall
  obtain ⟨hcanonical', hspelled', hshort'⟩ := chain_sound he.canonical he.spelled he.short hsteps
  have hreading : (chain e (steps ++ [(op, x)])).reading = op.attach (chain e steps).reading x.reading := by
    rw [chain_concat]
    rfl
  have hreads := reads_written_iff hcanonical hspelled
  rw [hreading] at hreads
  refine ⟨_, _, _, toC_of_short _ hshort, toC_of_short _ hshort', toC_of_short _ hx.short, _, _,
    reads_written_iff hcanonical' hspelled', reads_written_iff hx.canonical hx.spelled, hreads, ?_⟩
  rw [hreads, eq_comm, CompareOp.attach_eq_binary_iff, ne_eq, root_reading_chain_iff]
  simp [root_reading_of_not_compare he.notCompare]

/-- Behind an equality the grouping of an order relation is lost. -/
theorem reads_chain_idem_infra : ∃ text, ∃ l r,
    (chain (.name "a") ([(.idem, .name "b")] ++ [(.infra, .name "c")])).toC = .ok text ∧
      ¬ C.Reads text (.binary .less l r) ∧ C.Reads text (CompareOp.attach .infra l r) := by
  have hstep : ∀ s ∈ [(CompareOp.idem, Expr.name "b")], s.2.Operand :=
    List.forall_mem_singleton.2 (operand_name (show IsName "b" by decide))
  obtain ⟨text, _, _, htext, _, _, l, r, _, _, hreads, hiff⟩ :=
    reads_chain_iff .infra (operand_name (show IsName "a" by decide)) hstep
      (operand_name (show IsName "c" by decide))
  exact ⟨text, l, r, htext, fun h => absurd (hiff.1 h) (by decide), (hreads _).2 rfl⟩

/-- Whether the value of one comparison is below that of another operand becomes a question of
equality. -/
theorem compare_regrouped :
    (Expr.compare .infra (.compare .idem (.name "a") (.name "b")) (.name "c")).toC = .ok "a == b < c" ∧
      C.Reads "a == b < c"
        (.binary .equal (.name ['a']) (.binary .less (.name ['b']) (.name ['c']))) ∧
      ¬ C.Reads "a == b < c"
        (.binary .less (.binary .equal (.name ['a']) (.name ['b'])) (.name ['c'])) := by
  have hreads : ∀ t, C.Reads "a == b < c" t ↔
      t = .binary .equal (.name ['a']) (.binary .less (.name ['b']) (.name ['c'])) :=
    reads_written_iff (e := .compare .infra (.compare .idem (.name "a") (.name "b")) (.name "c"))
      (by simp [Throughout, Grouped, tightness]) (by simp only [Every]; decide)
  refine ⟨rfl, (hreads _).2 rfl, fun h => ?_⟩
  cases (hreads _).1 h

end Expr

end Throbac
