import Throbac.Recognizer

/-!
# Deciding and simplifying guards

An oracle that has an answer to every question decides every guard. Each guard has a truth value, in which joining two guards is conjunction or disjunction and deciding
the precedences changes nothing. A guard that joining has made evaluates to its value, as `always` is
no operand in it, and so does what is left of it, which has no precedence either.
-/
namespace Throbac

namespace Guard

/-- The oracle has an answer to every question. -/
structure Oracle.Total (o : Oracle) : Prop where
  predicate : ∀ r p b, ∃ v, o.predicate r p b = .ok v
  precedence : ∀ n, ∃ v, o.precedence n = .ok v

section

variable {o : Oracle}

mutual

theorem eval_ok (h : o.Total) : ∀ g : Guard, ∃ v, g.eval o = .ok v
  | always => ⟨none, rfl⟩
  | predicate r p needsContext => by
    obtain ⟨v, hv⟩ := h.predicate r p (needsContext && o.hasContext)
    exact ⟨some v, by rw [eval, hv]; rfl⟩
  | precedence n => by
    obtain ⟨v, hv⟩ := h.precedence n
    exact ⟨some v, by rw [eval, hv]; rfl⟩
  | all gs => by
    obtain ⟨v, hv⟩ := evalAll_ok h gs
    exact ⟨some v, by rw [eval, hv]; rfl⟩
  | any gs => by
    obtain ⟨v, hv⟩ := evalAny_ok h gs
    exact ⟨some v, by rw [eval, hv]; rfl⟩

theorem evalAll_ok (h : o.Total) : ∀ gs : List Guard, ∃ v, evalAll o gs = .ok v
  | [] => ⟨true, rfl⟩
  | g :: gs => by
    obtain ⟨v, hv⟩ := eval_ok h g
    rw [evalAll, hv]
    cases hb : v.getD false with
    | true =>
      obtain ⟨w, hw⟩ := evalAll_ok h gs
      exact ⟨w, by simpa [bind, Except.bind, hb] using hw⟩
    | false => exact ⟨false, by simp [bind, Except.bind, hb]; rfl⟩

theorem evalAny_ok (h : o.Total) : ∀ gs : List Guard, ∃ v, evalAny o gs = .ok v
  | [] => ⟨false, rfl⟩
  | g :: gs => by
    obtain ⟨v, hv⟩ := eval_ok h g
    rw [evalAny, hv]
    cases hb : v.getD false with
    | true => exact ⟨true, by simp [bind, Except.bind, hb]; rfl⟩
    | false =>
      obtain ⟨w, hw⟩ := evalAny_ok h gs
      exact ⟨w, by simpa [bind, Except.bind, hb] using hw⟩

end

end

/-! ## Truth values -/

/-- The truth value of a guard as it is evaluated; `always` is true. -/
def verdict (o : Oracle) (g : Guard) : Except Fault Bool := do return (← g.eval o).getD true

/-- The guards that joining makes of predicates, precedences and `always`. -/
inductive Built : Guard → Prop
  | always : Built always
  | predicate (r p : Int) (c : Bool) : Built (predicate r p c)
  | precedence (n : Int) : Built (precedence n)
  | conj {a b g : Guard} : Built a → Built b → Guard.conj (some a) (some b) = some g → Built g
  | disj {a b g : Guard} : Built a → Built b → Guard.disj (some a) (some b) = some g → Built g

/-- Predicates, and precedences if they may be `ranked`, under conjunctions and disjunctions. -/
inductive Joined (ranked : Prop) : Guard → Prop
  | predicate (r p : Int) (c : Bool) : Joined ranked (predicate r p c)
  | precedence (n : Int) : ranked → Joined ranked (precedence n)
  | all {gs : List Guard} : (∀ g ∈ gs, Joined ranked g) → Joined ranked (all gs)
  | any {gs : List Guard} : (∀ g ∈ gs, Joined ranked g) → Joined ranked (any gs)

def Proper (ranked : Prop) (g : Guard) : Prop := g = always ∨ Joined ranked g

/-- The answers of an oracle that has one to every question. -/
structure Oracle.Answers (o : Oracle) where
  predicate : Int → Int → Bool → Bool
  precedence : Int → Bool
  predicate_eq : ∀ r p b, o.predicate r p b = .ok (predicate r p b)
  precedence_eq : ∀ n, o.precedence n = .ok (precedence n)

def value {o : Oracle} (A : o.Answers) : Guard → Bool
  | always => true
  | predicate r p c => A.predicate r p (c && o.hasContext)
  | precedence n => A.precedence n
  | all gs => gs.attach.all fun g => g.1.value A
  | any gs => gs.attach.any fun g => g.1.value A
decreasing_by
  all_goals
    have := List.sizeOf_lt_of_mem g.2
    simp only [all.sizeOf_spec, any.sizeOf_spec]
    omega

variable {o : Oracle} (A : o.Answers) {ranked : Prop} {g : Guard} {gs : List Guard}

theorem value_always : always.value A = true := by rw [value]

theorem value_all : (all gs).value A = gs.all (value A) := by
  rw [value]
  simp

theorem value_any : (any gs).value A = gs.any (value A) := by
  rw [value]
  simp

theorem evalAll_eq (h : ∀ g ∈ gs, g.eval o = .ok (some (g.value A))) : evalAll o gs = .ok (gs.all (value A)) := by
  induction gs with
  | nil => rfl
  | cons g gs ih =>
    obtain ⟨hg, hgs⟩ := List.forall_mem_cons.1 h
    rw [evalAll, hg, List.all_cons]
    cases g.value A with
    | true => exact ih hgs
    | false => rfl

theorem evalAny_eq (h : ∀ g ∈ gs, g.eval o = .ok (some (g.value A))) : evalAny o gs = .ok (gs.any (value A)) := by
  induction gs with
  | nil => rfl
  | cons g gs ih =>
    obtain ⟨hg, hgs⟩ := List.forall_mem_cons.1 h
    rw [evalAny, hg, List.any_cons]
    cases g.value A with
    | true => rfl
    | false => exact ih hgs

theorem Joined.eval_eq (h : Joined ranked g) : g.eval o = .ok (some (g.value A)) := by
  induction h with
  | predicate r p c => simp [eval, A.predicate_eq, value, Functor.map, Except.map]
  | precedence n => simp [eval, A.precedence_eq, value, Functor.map, Except.map]
  | all _ ih => simp [eval, evalAll_eq A ih, value, Functor.map, Except.map]
  | any _ ih => simp [eval, evalAny_eq A ih, value, Functor.map, Except.map]

theorem Proper.verdict_eq (h : Proper ranked g) : g.verdict o = .ok (g.value A) := by
  rcases h with rfl | h
  · rw [value]
    rfl
  · rw [verdict, h.eval_eq A]
    rfl

/-! ## Joining two guards -/

theorem mem_operands {g : Guard} {gs : List Guard} : g ∈ operands gs ↔ g ∈ gs := by
  have honce : ∀ (gs seen : List Guard),
      g ∈ gs.foldl (fun seen g => if g ∈ seen then seen else seen ++ [g]) seen ↔ g ∈ seen ∨ g ∈ gs := by
    intro gs
    induction gs with
    | nil => simp
    | cons x xs ih =>
      intro seen
      rw [List.foldl_cons, ih]
      split
      · next hx =>
        constructor
        · rintro (h | h)
          · exact .inl h
          · exact .inr (List.mem_cons_of_mem _ h)
        · rintro (h | h)
          · exact .inl h
          · rcases List.mem_cons.1 h with rfl | h
            · exact .inl hx
            · exact .inr h
      · simp [or_assoc]
  rw [operands]
  simp only [List.mem_append, Sequence.mem_sortBy, List.mem_filter, honce, List.not_mem_nil,
    false_or]
  cases g <;> simp

theorem Joined.conjuncts (h : Joined ranked g) : ∀ x ∈ g.conjuncts, Joined ranked x := by
  cases h with
  | all h => exact h
  | _ => simp_all [Guard.conjuncts, Joined.predicate, Joined.precedence, Joined.any]

theorem Joined.disjuncts (h : Joined ranked g) : ∀ x ∈ g.disjuncts, Joined ranked x := by
  cases h with
  | any h => exact h
  | _ => simp_all [Guard.disjuncts, Joined.predicate, Joined.precedence, Joined.all]

theorem joined_single {wrap : List Guard → Guard} {as bs : List Guard}
    (hwrap : ∀ {gs}, (∀ g ∈ gs, Joined ranked g) → Joined ranked (wrap gs)) (has : ∀ g ∈ as, Joined ranked g)
    (hbs : ∀ g ∈ bs, Joined ranked g) : Joined ranked (single wrap (operands (as ++ bs))) := by
  have h : ∀ g ∈ operands (as ++ bs), Joined ranked g := fun g hg =>
    (List.mem_append.1 (mem_operands.1 hg)).elim (has g) (hbs g)
  unfold single
  split
  · next hg => exact h _ (by simp [hg])
  · exact hwrap h

/-- Joining keeps the value `F` of a list in which the two stand, and nothing new stands in what it gives. -/
def Combines (F : List Guard → Bool) (join : Option Guard → Option Guard → Option Guard) : Prop :=
  ∀ a b, ∃ g, join (some a) (some b) = some g ∧ (∀ gs, F (g :: gs) = F (a :: b :: gs)) ∧
    ∀ ranked, Proper ranked a → Proper ranked b → Proper ranked g

theorem combines_conj : Combines (List.all · (value A)) conj := by
  intro a b
  by_cases ha : a = always
  · exact ⟨b, by rw [ha]; rfl, by simp [ha, value], fun _ _ hb => hb⟩
  by_cases hb : b = always
  · exact ⟨a, by rw [hb]; cases a <;> rfl, by simp [hb, value], fun _ ha _ => ha⟩
  refine ⟨single all (operands (a.conjuncts ++ b.conjuncts)), ?_, fun gs => ?_, fun ranked ha' hb' => .inr ?_⟩
  · cases a <;> cases b <;> first | contradiction | rfl
  · have hparts : ∀ g : Guard, g.value A = true ↔ ∀ x ∈ g.conjuncts, x.value A = true := by
      intro g
      cases g <;> simp [conjuncts, value]
    have hsingle : ∀ gs, (single all gs).value A = true ↔ ∀ x ∈ gs, x.value A = true := by
      intro gs
      unfold single
      split <;> simp [value]
    rw [Bool.eq_iff_iff]
    simp [hsingle, hparts a, hparts b, mem_operands, or_imp, forall_and, and_assoc]
  · exact joined_single .all (ha'.resolve_left ha).conjuncts (hb'.resolve_left hb).conjuncts

theorem combines_disj : Combines (List.any · (value A)) disj := by
  intro a b
  by_cases ha : a = always
  · exact ⟨always, by rw [ha]; rfl, by simp [ha, value], fun _ _ _ => .inl rfl⟩
  by_cases hb : b = always
  · exact ⟨always, by rw [hb]; cases a <;> rfl, by simp [hb, value], fun _ _ _ => .inl rfl⟩
  refine ⟨single any (operands (a.disjuncts ++ b.disjuncts)), ?_, fun gs => ?_, fun ranked ha' hb' => .inr ?_⟩
  · cases a <;> cases b <;> first | contradiction | rfl
  · have hparts : ∀ g : Guard, g.value A = true ↔ ∃ x ∈ g.disjuncts, x.value A = true := by
      intro g
      cases g <;> simp [disjuncts, value]
    have hsingle : ∀ gs, (single any gs).value A = true ↔ ∃ x ∈ gs, x.value A = true := by
      intro gs
      unfold single
      split <;> simp [value]
    rw [Bool.eq_iff_iff]
    simp [hsingle, hparts a, hparts b, mem_operands, or_and_right, exists_or, or_assoc]
  · exact joined_single .any (ha'.resolve_left ha).disjuncts (hb'.resolve_left hb).disjuncts

/-- The guards of a list joined from the left. -/
theorem Combines.foldl {F : List Guard → Bool} {join : Option Guard → Option Guard → Option Guard}
    (h : Combines F join) (gs : List Guard) (a : Guard) :
    ∃ s, gs.foldl (fun acc g => join acc (some g)) (some a) = some s ∧ F [s] = F (a :: gs) ∧
      ∀ ranked, Proper ranked a → (∀ g ∈ gs, Proper ranked g) → Proper ranked s := by
  induction gs generalizing a with
  | nil => exact ⟨a, rfl, rfl, fun _ ha _ => ha⟩
  | cons g gs ih =>
    obtain ⟨b, hb, hvalue, hproper⟩ := h a g
    obtain ⟨s, hs, hvalue', hproper'⟩ := ih b
    refine ⟨s, by rw [List.foldl_cons, hb, hs], by rw [hvalue', hvalue], fun ranked ha hgs => ?_⟩
    obtain ⟨hg, hgs⟩ := List.forall_mem_cons.1 hgs
    exact hproper' ranked (hproper ranked ha hg) hgs

theorem proper_of_built (A : o.Answers) (h : Built g) : Proper True g := by
  induction h with
  | always => exact .inl rfl
  | predicate r p c => exact .inr (.predicate r p c)
  | precedence n => exact .inr (.precedence n trivial)
  | @conj a b _ _ _ h iha ihb =>
    obtain ⟨g, hg, -, hproper⟩ := combines_conj A a b
    exact Option.some.inj (h.symm.trans hg) ▸ hproper _ iha ihb
  | @disj a b _ _ _ h iha ihb =>
    obtain ⟨g, hg, -, hproper⟩ := combines_disj A a b
    exact Option.some.inj (h.symm.trans hg) ▸ hproper _ iha ihb

/-! ## Deciding the precedences -/

/-- What may be left of a guard: nothing if it is false, else a guard of the same value, and one without
precedences. -/
def Reduct (g : Guard) : Option Guard → Prop
  | none => g.value A = false
  | some s => s.value A = g.value A ∧ (Joined True g → Proper False s)

/-- Operands that are left as they are have no precedence in them. -/
theorem joined_of_proper (h : ∀ g ∈ gs, Proper False g) (hgs : ∀ g ∈ gs, Joined ranked g) :
    ∀ g ∈ gs, Joined False g := by
  refine fun g hg => (h g hg).resolve_left ?_
  rintro rfl
  cases hgs always hg

mutual

theorem reduct_reduce : ∀ g : Guard, ∃ r, g.reduce o = .ok r ∧ Reduct A g r
  | always => ⟨some always, rfl, rfl, fun _ => .inl rfl⟩
  | predicate r p c => ⟨some (predicate r p c), rfl, rfl, fun _ => .inr (.predicate r p c)⟩
  | precedence n => by
    refine ⟨if A.precedence n then some always else none, by rw [reduce, A.precedence_eq]; rfl, ?_⟩
    cases h : A.precedence n <;> simp [Reduct, value, h, Proper]
  | all gs => by
    obtain ⟨l, hl, hleft⟩ := reduct_reduceAll gs
    rw [reduce, hl]
    rcases l with _ | left
    · exact ⟨none, rfl, by rw [Reduct, value_all]; exact hleft⟩
    obtain ⟨ss, rfl, hvalue, hproper⟩ := hleft
    simp only [bind, Except.bind, List.filterMap_map, Function.comp_def, id_eq, List.filterMap_some]
    split
    · next heq =>
      obtain rfl : ss = gs := (List.map_inj_right fun _ _ => Option.some.inj).1 heq
      refine ⟨some (all ss), rfl, rfl, fun h => .inr ?_⟩
      cases h with
      | all h => exact .all (joined_of_proper (hproper h) h)
    · have hkept : (ss.filter (· ≠ always)).all (value A) = gs.all (value A) := by
        rw [← hvalue, List.all_filter]
        refine congrArg ss.all (funext fun g => ?_)
        by_cases hg : g = always <;> simp [hg, value]
      have hmem : ∀ s ∈ ss.filter (· ≠ always), s ∈ ss := fun s hs => (List.mem_filter.1 hs).1
      generalize ss.filter (· ≠ always) = kept at hkept hmem
      rcases kept with _ | ⟨k, ks⟩
      · exact ⟨some always, rfl, by rw [value_always, value_all, ← hkept]; rfl, fun _ => .inl rfl⟩
      obtain ⟨s, hs, hsvalue, hsproper⟩ := (combines_conj A).foldl ks k
      refine ⟨some s, congrArg Except.ok hs, by simpa [value] using hsvalue.trans hkept, fun h => ?_⟩
      cases h with
      | all h =>
        obtain ⟨hk, hks⟩ := List.forall_mem_cons.1 fun s hs => hproper h s (hmem s hs)
        exact hsproper _ hk hks
  | any gs => by
    obtain ⟨l, hl, hleft⟩ := reduct_reduceAny gs
    rw [reduce, hl]
    rcases l with _ | left
    · exact ⟨some always, rfl, by rw [value_always, value_any]; exact hleft.symm, fun _ => .inl rfl⟩
    obtain ⟨hvalue, hproper⟩ := hleft
    simp only [bind, Except.bind]
    split
    · next heq =>
      refine ⟨some (any gs), rfl, rfl, fun h => .inr ?_⟩
      cases h with
      | any h => exact .any (joined_of_proper (fun g hg => hproper h g (heq ▸ List.mem_map_of_mem hg)) h)
    · have hmem : ∀ s ∈ left.filterMap id, some s ∈ left := by simp
      generalize left.filterMap id = kept at hvalue hmem
      rcases kept with _ | ⟨k, ks⟩
      · exact ⟨none, rfl, by rw [Reduct, value_any, ← hvalue]; rfl⟩
      obtain ⟨s, hs, hsvalue, hsproper⟩ := (combines_disj A).foldl ks k
      refine ⟨some s, congrArg Except.ok hs, by simpa [value] using hsvalue.trans hvalue, fun h => ?_⟩
      cases h with
      | any h =>
        obtain ⟨hk, hks⟩ := List.forall_mem_cons.1 fun s hs => hproper h s (hmem s hs)
        exact hsproper _ hk hks

theorem reduct_reduceAll : ∀ gs : List Guard, ∃ l, reduceAll o gs = .ok l ∧
    match l with
    | none => gs.all (value A) = false
    | some left => ∃ ss : List Guard, left = ss.map some ∧ ss.all (value A) = gs.all (value A) ∧
      ((∀ g ∈ gs, Joined True g) → ∀ s ∈ ss, Proper False s)
  | [] => ⟨some [], rfl, [], rfl, rfl, by simp⟩
  | g :: gs => by
    obtain ⟨r, hr, hreduct⟩ := reduct_reduce g
    rw [reduceAll, hr]
    rcases r with _ | s
    · exact ⟨none, rfl, by simp [show g.value A = false from hreduct]⟩
    obtain ⟨l, hl, hleft⟩ := reduct_reduceAll gs
    refine ⟨l.map (some s :: ·), by simp only [bind, Except.bind, hl]; rfl, ?_⟩
    rcases l with _ | left
    · rw [Option.map_none, List.all_cons, show gs.all (value A) = false from hleft, Bool.and_false]
    · obtain ⟨ss, rfl, hvalue, hproper⟩ := hleft
      refine ⟨s :: ss, rfl, by rw [List.all_cons, List.all_cons, hreduct.1, hvalue], fun h => ?_⟩
      obtain ⟨hg, hgs⟩ := List.forall_mem_cons.1 h
      exact List.forall_mem_cons.2 ⟨hreduct.2 hg, hproper hgs⟩

theorem reduct_reduceAny : ∀ gs : List Guard, ∃ l, reduceAny o gs = .ok l ∧
    match l with
    | none => gs.any (value A) = true
    | some left => (left.filterMap id).any (value A) = gs.any (value A) ∧
      ((∀ g ∈ gs, Joined True g) → ∀ s, some s ∈ left → Proper False s)
  | [] => ⟨some [], rfl, rfl, by simp⟩
  | g :: gs => by
    obtain ⟨r, hr, hreduct⟩ := reduct_reduce g
    obtain ⟨l, hl, hleft⟩ := reduct_reduceAny gs
    rw [reduceAny, hr]
    simp only [bind, Except.bind, hl]
    split
    · exact ⟨none, rfl, by simp [← hreduct.1, value]⟩
    refine ⟨l.map (r :: ·), rfl, ?_⟩
    rcases l with _ | left
    · rw [Option.map_none, List.any_cons, show gs.any (value A) = true from hleft, Bool.or_true]
    obtain ⟨hvalue, hproper⟩ := hleft
    refine ⟨?_, fun h s hs => ?_⟩
    · rcases r with _ | s
      · rw [List.filterMap_cons_none rfl, hvalue, List.any_cons, show g.value A = false from hreduct, Bool.false_or]
      · rw [List.filterMap_cons_some (f := id) (b := s) rfl, List.any_cons, List.any_cons, hvalue, hreduct.1]
    · obtain ⟨hg, hgs⟩ := List.forall_mem_cons.1 h
      rcases List.mem_cons.1 hs with rfl | hs
      · exact hreduct.2 hg
      · exact hproper hgs s hs

end

theorem reduce_ok (h : o.Total) (g : Guard) : ∃ r, g.reduce o = .ok r := by
  have A : o.Answers := ⟨fun r p b => (h.predicate r p b).choose, fun n => (h.precedence n).choose,
    fun r p b => (h.predicate r p b).choose_spec, fun n => (h.precedence n).choose_spec⟩
  obtain ⟨r, hr, -⟩ := reduct_reduce A g
  exact ⟨r, hr⟩

/-- For every precedence of the parser and every truth assignment to the predicates, the joins of two
guards are true as the two say, and deciding the precedences of a guard keeps its truth. -/
theorem verdict_join_reduce (r : Recognizer) {level : Int} {outer : List Int} (truth : Int → Int → Bool → Bool)
    (hlevel : r.precedences = level :: outer) (htruth : r.spec.predicate = fun i j c => .ok (truth i j c))
    (hasContext : Bool) {a b : Guard} (ha : Built a) (hb : Built b) :
    let o := r.oracle hasContext
    ∃ x y, a.verdict o = .ok x ∧ b.verdict o = .ok y ∧
      (∃ g, conj (some a) (some b) = some g ∧ g.verdict o = .ok (x && y)) ∧
      (∃ g, disj (some a) (some b) = some g ∧ g.verdict o = .ok (x || y)) ∧
      ((a.reduce o = .ok none ∧ x = false) ∨
        ∃ s, a.reduce o = .ok (some s) ∧ (s = always ∨ Joined False s) ∧ s.verdict o = .ok x) := by
  intro o
  let A : o.Answers := ⟨truth, fun n => decide (n ≥ level),
    fun i j c => by rw [show o.predicate = r.spec.predicate from rfl, htruth],
    fun n => by simp only [o, Recognizer.oracle, hlevel]⟩
  have ha := proper_of_built A ha
  have hb := proper_of_built A hb
  refine ⟨_, _, ha.verdict_eq A, hb.verdict_eq A, ?_, ?_, ?_⟩
  · obtain ⟨g, hg, hvalue, hproper⟩ := combines_conj A a b
    exact ⟨g, hg, by simpa [(hproper _ ha hb).verdict_eq A] using hvalue []⟩
  · obtain ⟨g, hg, hvalue, hproper⟩ := combines_disj A a b
    exact ⟨g, hg, by simpa [(hproper _ ha hb).verdict_eq A] using hvalue []⟩
  · obtain ⟨s, hs, hreduct⟩ := reduct_reduce A a
    cases s with
    | none => exact .inl ⟨hs, hreduct⟩
    | some s =>
      have hproper : Proper False s := by
        rcases ha with rfl | ha
        · obtain rfl := Option.some.inj (Except.ok.inj hs)
          exact .inl rfl
        · exact hreduct.2 ha
      exact .inr ⟨s, hs, hproper, by rw [hproper.verdict_eq A, hreduct.1]⟩

/-- At the precedence 3, where only predicates of number 0 are true. -/
theorem verdict_join_reduce_nested :
    let r : Recognizer :=
      { spec := { network := {}, predicate := fun _ j _ => .ok (j == 0) }, stream := default, precedences := [3, 0] }
    let a := any [precedence 2, all [predicate 0 0 false, precedence 5]]
    let b := predicate 0 1 true
    Built a ∧ Built b ∧ ∃ x y, a.verdict (r.oracle true) = .ok x ∧ b.verdict (r.oracle true) = .ok y ∧
      (∃ g, conj (some a) (some b) = some g ∧ g.verdict (r.oracle true) = .ok (x && y)) ∧
      ∃ s, a.reduce (r.oracle true) = .ok (some s) ∧ s.verdict (r.oracle true) = .ok x := by
  intro r a b
  have hinner : Built (all [predicate 0 0 false, precedence 5]) :=
    .conj (.predicate 0 0 false) (.precedence 5) (by decide +kernel)
  have ha : Built a := .disj (.precedence 2) hinner (by decide +kernel)
  have hb : Built b := .predicate 0 1 true
  obtain ⟨x, y, hx, hy, hconj, -, hreduce⟩ := verdict_join_reduce r (fun _ j _ => j == 0) rfl rfl true ha hb
  refine ⟨ha, hb, x, y, hx, hy, hconj, ?_⟩
  rcases hreduce with ⟨hnone, -⟩ | ⟨s, hs, -, hsame⟩
  · cases hnone
  · exact ⟨s, hs, hsame⟩

end Guard

end Throbac
