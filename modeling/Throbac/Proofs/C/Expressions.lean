import Throbac.Proofs.C.Lexemes

/-!
# C expressions

The grammar of C expressions made of names, constants, parentheses, calls, the unary minus and binary
operators. How tightly an operator binds is left open, so that the same text can be read under
different rules; `Operator.level` has the rule of C. Whatever the levels are, the grammar is
unambiguous: a reader that goes from left to right finds every derivation.
-/
namespace Throbac.C

inductive Operator
  | times
  | divided
  | plus
  | minus
  | less
  | atMost
  | greater
  | atLeast
  | equal
  | unequal
  deriving DecidableEq, Repr

namespace Operator

def mark : Operator → List Char
  | times => ['*']
  | divided => ['/']
  | plus => ['+']
  | minus => ['-']
  | less => ['<']
  | atMost => ['<', '=']
  | greater => ['>']
  | atLeast => ['>', '=']
  | equal => ['=', '=']
  | unequal => ['!', '=']

def ofMark? : List Char → Option Operator
  | ['*'] => some times
  | ['/'] => some divided
  | ['+'] => some plus
  | ['-'] => some minus
  | ['<'] => some less
  | ['<', '='] => some atMost
  | ['>'] => some greater
  | ['>', '='] => some atLeast
  | ['=', '='] => some equal
  | ['!', '='] => some unequal
  | _ => none

theorem ofMark?_mark (op : Operator) : ofMark? op.mark = some op := by cases op <;> rfl

theorem mark_ne_open (op : Operator) : op.mark ≠ ['('] := by cases op <;> decide

/-- How tightly an operator binds in C: products before sums, sums before the order relations, and
these before equality. -/
def level : Operator → Nat
  | times | divided => 4
  | plus | minus => 3
  | less | atMost | greater | atLeast => 2
  | equal | unequal => 1

end Operator

inductive Expression
  | name (s : List Char)
  | number (s : List Char)
  | string (s : List Char)
  | parens (e : Expression)
  | minus (e : Expression)
  | binary (op : Operator) (left right : Expression)
  | call (f : List Char) (arguments : List Expression)
  deriving Repr

def unaryLevel : Nat := 5

mutual

/-- The expressions that lexemes can be read as at a level or a tighter one, each operator with its
own level. All operators group to the left. -/
inductive Derives (level : Operator → Nat) : Nat → List Lexeme → Expression → Prop
  | name {n s b} : Derives level n [.word s b] (.name s)
  | number {n s} : Derives level n [.number s] (.number s)
  | string {n s} : Derives level n [.string s] (.string s)
  | parens {n ts e} (h : Derives level 0 ts e) :
    Derives level n (.mark ['('] :: (ts ++ [.mark [')']])) (.parens e)
  | minus {n ts e} (hn : n ≤ unaryLevel) (h : Derives level unaryLevel ts e) :
    Derives level n (.mark ['-'] :: ts) (.minus e)
  | binary {n op ts us l r} (hn : n ≤ level op) (hl : Derives level (level op) ts l)
    (hr : Derives level (level op + 1) us r) :
    Derives level n (ts ++ .mark op.mark :: us) (.binary op l r)
  | bareCall {n f b} : Derives level n [.word f b, .mark ['('], .mark [')']] (.call f [])
  | call {n f b ts es} (h : DerivesAll level ts es) :
    Derives level n (.word f b :: .mark ['('] :: (ts ++ [.mark [')']])) (.call f es)

/-- Expressions with commas between them. -/
inductive DerivesAll (level : Operator → Nat) : List Lexeme → List Expression → Prop
  | one {ts e} (h : Derives level 0 ts e) : DerivesAll level ts [e]
  | more {ts e us es} (h : Derives level 0 ts e) (hs : DerivesAll level us es) :
    DerivesAll level (ts ++ .mark [','] :: us) (e :: es)

end

theorem Derives.loosen {level : Operator → Nat} {m n : Nat} {ts : List Lexeme} {e : Expression}
    (h : Derives level m ts e) (hn : n ≤ m) : Derives level n ts e := by
  cases h with
  | name => exact .name
  | number => exact .number
  | string => exact .string
  | parens h => exact .parens h
  | minus hm h => exact .minus (Nat.le_trans hn hm) h
  | binary hm hl hr => exact .binary (Nat.le_trans hn hm) hl hr
  | bareCall => exact .bareCall
  | call h => exact .call h

/-! A reader from left to right. The number bounds the depth of its calls. -/

def afterClose : List Lexeme → Option (List Lexeme)
  | .mark [')'] :: ts => some ts
  | _ => none

/-- The operator at the front, and what is left behind it. -/
def operatorAt? : List Lexeme → Option (Operator × List Lexeme)
  | .mark s :: ts => (Operator.ofMark? s).map (·, ts)
  | _ => none

section Reader

variable (level : Operator → Nat)

mutual

def readOperand : Nat → List Lexeme → Option (Expression × List Lexeme)
  | 0, _ => none
  | k + 1, ts =>
    match ts with
    | .number s :: ts => some (.number s, ts)
    | .string s :: ts => some (.string s, ts)
    | .mark ['('] :: ts =>
      (readFrom k 0 ts).bind fun (e, ts) => (afterClose ts).map fun ts => (.parens e, ts)
    | .mark ['-'] :: ts => (readFrom k unaryLevel ts).map fun (e, ts) => (.minus e, ts)
    | .word f _ :: .mark ['('] :: ts =>
      match afterClose ts with
      | some ts => some (.call f [], ts)
      | none => (readArguments k ts).map fun (es, ts) => (.call f es, ts)
    | .word s _ :: ts => some (.name s, ts)
    | _ => none

/-- Reads an operand and the operators behind it that are tight enough. -/
def readFrom : Nat → Nat → List Lexeme → Option (Expression × List Lexeme)
  | 0, _, _ => none
  | k + 1, n, ts => (readOperand k ts).bind fun (e, ts) => extend k n e ts

def extend : Nat → Nat → Expression → List Lexeme → Option (Expression × List Lexeme)
  | 0, _, _, _ => none
  | k + 1, n, e, ts =>
    match operatorAt? ts with
    | none => some (e, ts)
    | some (op, us) =>
      if n ≤ level op then
        (readFrom k (level op + 1) us).bind fun (r, us) => extend k n (.binary op e r) us
      else some (e, ts)

def readArguments : Nat → List Lexeme → Option (List Expression × List Lexeme)
  | 0, _ => none
  | k + 1, ts => (readFrom k 0 ts).bind fun (e, ts) => readMore k e ts

def readMore : Nat → Expression → List Lexeme → Option (List Expression × List Lexeme)
  | 0, _, _ => none
  | k + 1, e, .mark [','] :: ts => (readArguments k ts).map fun (es, ts) => (e :: es, ts)
  | _ + 1, e, ts => (afterClose ts).map fun ts => ([e], ts)

end

end Reader

/-- Work that gives the value at every sufficient bound. -/
def Yields {α : Type} (f : Nat → Option α) (x : α) : Prop := ∃ k, ∀ j, k ≤ j → f j = some x

namespace Yields

variable {α β : Type} {f : Nat → Option α} {x y : α}

theorem unique (hx : Yields f x) (hy : Yields f y) : x = y := by
  obtain ⟨k, hk⟩ := hx
  obtain ⟨l, hl⟩ := hy
  have h := hk (max k l) (Nat.le_max_left k l)
  rw [hl _ (Nat.le_max_right k l)] at h
  exact (Option.some.inj h).symm

theorem call {g : Nat → Option α} (h : Yields f x) (hg : ∀ k, g (k + 1) = f k) : Yields g x := by
  obtain ⟨k, hk⟩ := h
  refine ⟨k + 1, fun j hj => ?_⟩
  obtain ⟨i, rfl⟩ : ∃ i, j = i + 1 := ⟨j - 1, by omega⟩
  rw [hg, hk i (by omega)]

theorem bind {g : Nat → α → Option β} {b : β} (hf : Yields f x) (hg : Yields (g · x) b) :
    Yields (fun k => (f k).bind (g k)) b := by
  obtain ⟨k, hk⟩ := hf
  obtain ⟨l, hl⟩ := hg
  refine ⟨max k l, fun j hj => ?_⟩
  show (f j).bind (g j) = some b
  rw [hk j (by omega), Option.bind_some]
  exact hl j (by omega)

theorem map {g : α → β} (hf : Yields f x) : Yields (fun k => (f k).map g) (g x) := by
  obtain ⟨k, hk⟩ := hf
  exact ⟨k, fun j hj => congrArg (Option.map g) (hk j hj)⟩

theorem pure : Yields (fun _ => some x) x := ⟨0, fun _ _ => rfl⟩

end Yields

def Expression.root (level : Operator → Nat) : Expression → Nat
  | .binary op _ _ => level op
  | _ => unaryLevel

/-- Behind an expression of level `n` no operator follows that would go on with it, and no argument. -/
def Halts (level : Operator → Nat) (n : Nat) (ts : List Lexeme) : Prop :=
  (∀ us, ts ≠ .mark ['('] :: us) ∧ ∀ op us, operatorAt? ts = some (op, us) → level op < n

section

variable {level : Operator → Nat} {m n : Nat} {ts us rest : List Lexeme} {e : Expression}
  {x : Expression × List Lexeme}

theorem Halts.mono (h : Halts level m ts) (hmn : m ≤ n) : Halts level n ts :=
  ⟨h.1, fun op us ho => Nat.lt_of_lt_of_le (h.2 op us ho) hmn⟩

theorem operatorAt?_mark (op : Operator) (ts : List Lexeme) :
    operatorAt? (.mark op.mark :: ts) = some (op, ts) := by
  rw [operatorAt?, Operator.ofMark?_mark, Option.map_some]

theorem halts_operator (op : Operator) (ts : List Lexeme) :
    Halts level (level op + 1) (.mark op.mark :: ts) := by
  refine ⟨fun us h => op.mark_ne_open (Lexeme.mark.inj (List.cons.inj h).1), fun op' us ho => ?_⟩
  rw [operatorAt?_mark] at ho
  cases ho
  exact Nat.lt_succ_self _

theorem halts_mark {s : List Char} (hs : s ≠ ['(']) (hop : Operator.ofMark? s = none) :
    Halts level n (.mark s :: ts) :=
  ⟨fun us h => hs (Lexeme.mark.inj (List.cons.inj h).1), fun op us ho => by simp [operatorAt?, hop] at ho⟩

theorem halts_nil : Halts level n [] :=
  ⟨fun _ h => by simp at h, fun _ _ h => by simp [operatorAt?] at h⟩

theorem halts_close (ts : List Lexeme) : Halts level n (.mark [')'] :: ts) :=
  halts_mark (by decide) rfl

theorem extend_halts (h : Halts level n ts) (e : Expression) :
    Yields (fun k => extend level k n e ts) (e, ts) := by
  refine Yields.pure.call fun k => ?_
  rw [extend]
  split
  · rfl
  · next op us ho => rw [if_neg (Nat.not_le.2 (h.2 op us ho))]

theorem readFrom_operand (ho : Yields (fun k => readOperand level k (ts ++ rest)) (e, rest))
    (hx : Yields (fun k => extend level k n e rest) x) :
    Yields (fun k => readFrom level k n (ts ++ rest)) x :=
  (ho.bind hx).call fun _ => rfl

theorem readOperand_name {s : List Char} {b : Bool} (h : ∀ us, ts ≠ .mark ['('] :: us) (k : Nat) :
    readOperand level (k + 1) (.word s b :: ts) = some (.name s, ts) := by
  cases ts with
  | nil => rfl
  | cons t ts =>
    rw [readOperand]
    rintro us hus
    exact h us hus

theorem Derives.le_root (h : Derives level m ts e) (hm : m ≤ unaryLevel) : m ≤ e.root level := by
  cases h with
  | binary hn _ _ => exact hn
  | _ => exact hm

theorem Derives.afterClose {m : Nat} {ts : List Lexeme} {e : Expression} (h : Derives level m ts e)
    (rest : List Lexeme) : afterClose (ts ++ rest) = none := by
  match h with
  | .binary _ hl _ =>
    rw [List.append_assoc]
    exact hl.afterClose _
  | .name | .number | .string | .parens _ | .minus _ _ | .bareCall | .call _ => rfl

theorem DerivesAll.afterClose {es : List Expression} (h : DerivesAll level ts es) (rest : List Lexeme) :
    C.afterClose (ts ++ rest) = none := by
  cases h with
  | one h => exact h.afterClose rest
  | more h _ =>
    rw [List.append_assoc]
    exact h.afterClose _

mutual

theorem Derives.reads (hlevel : ∀ op, level op < unaryLevel) {m n : Nat} {ts rest : List Lexeme}
    {e : Expression} {x : Expression × List Lexeme} (h : Derives level m ts e) (hn : n ≤ m)
    (hrest : Halts level (e.root level + 1) rest)
    (hx : Yields (fun k => extend level k n e rest) x) :
    Yields (fun k => readFrom level k n (ts ++ rest)) x := by
  match h with
  | .name => exact readFrom_operand (Yields.pure.call (readOperand_name hrest.1)) hx
  | .number => exact readFrom_operand (Yields.pure.call fun _ => rfl) hx
  | .string => exact readFrom_operand (Yields.pure.call fun _ => rfl) hx
  | @Derives.parens _ _ us e h =>
    refine readFrom_operand ?_ hx
    have hinner := h.reads hlevel (n := 0) (Nat.le_refl 0) (halts_close rest)
      (extend_halts (halts_close rest) e)
    refine (hinner.bind (g := fun _ (e, ts) => (afterClose ts).map fun ts => (.parens e, ts))
      Yields.pure).call fun k => ?_
    rw [List.cons_append, List.append_assoc]
    rfl
  | @Derives.minus _ _ _ e hm h =>
    refine readFrom_operand ?_ hx
    have hhalts : Halts level unaryLevel rest := ⟨hrest.1, fun op _ _ => hlevel op⟩
    have hinner := h.reads hlevel (Nat.le_refl _) (hhalts.mono (by
      have := h.le_root (Nat.le_refl _)
      omega)) (extend_halts hhalts e)
    refine (hinner.map (g := fun (e, ts) => (Expression.minus e, ts))).call fun k => ?_
    rfl
  | @Derives.binary _ _ op ls rs l r hm hl hr =>
    -- behind the left operand the operator goes on, behind the right one nothing does
    rw [List.append_assoc, List.cons_append]
    have hop := hlevel op
    have hroot := hl.le_root (Nat.le_of_lt hop)
    have hroot' := hr.le_root hop
    refine hl.reads hlevel (Nat.le_trans hn hm) ((halts_operator op _).mono (by omega)) ?_
    have hright := hr.reads hlevel (Nat.le_refl _)
      (hrest.mono (Nat.le_trans hroot' (Nat.le_succ _))) (extend_halts hrest r)
    refine (hright.bind (g := fun k (r, us) => extend level k n (.binary op l r) us) hx).call
      fun k => ?_
    rw [extend, operatorAt?_mark]
    exact if_pos (Nat.le_trans hn hm)
  | .bareCall => exact readFrom_operand (Yields.pure.call fun _ => rfl) hx
  | @Derives.call _ _ f _ us es h =>
    refine readFrom_operand ?_ hx
    have hclose := h.afterClose (.mark [')'] :: rest)
    refine ((h.reads hlevel rest).map (g := fun (es, ts) => (Expression.call f es, ts))).call fun k => ?_
    rw [List.cons_append, List.cons_append, List.append_assoc, readOperand]
    simp only [List.cons_append, List.nil_append, hclose]

theorem DerivesAll.reads (hlevel : ∀ op, level op < unaryLevel) {ts : List Lexeme}
    {es : List Expression} (h : DerivesAll level ts es) (rest : List Lexeme) :
    Yields (fun k => readArguments level k (ts ++ .mark [')'] :: rest)) (es, rest) := by
  match h with
  | @DerivesAll.one _ _ e h =>
    have hfirst := h.reads hlevel (Nat.le_refl 0) (halts_close rest)
      (extend_halts (halts_close rest) e)
    have hlast : Yields (fun k => readMore level k e (.mark [')'] :: rest)) ([e], rest) :=
      Yields.pure.call fun _ => rfl
    exact (hfirst.bind (g := fun k (e, ts) => readMore level k e ts) hlast).call fun _ => rfl
  | @DerivesAll.more _ _ e us _ h hs =>
    have hhalts : Halts level 0 (.mark [','] :: (us ++ .mark [')'] :: rest)) :=
      halts_mark (by decide) rfl
    have hfirst := h.reads hlevel (Nat.le_refl 0) (hhalts.mono (Nat.zero_le _)) (extend_halts hhalts e)
    rw [List.append_assoc, List.cons_append]
    have hmore : Yields (fun k => readMore level k e (.mark [','] :: (us ++ .mark [')'] :: rest))) _ :=
      ((hs.reads hlevel rest).map (g := fun (es, ts) => (e :: es, ts))).call fun _ => rfl
    exact (hfirst.bind (g := fun k (e, ts) => readMore level k e ts) hmore).call fun _ => rfl

end

variable (hlevel : ∀ op, level op < unaryLevel)
include hlevel

/-- No two expressions begin a list of lexemes in different ways, if each of them ends where nothing
goes on with it. -/
theorem Derives.unique_split {ts' rest' : List Lexeme} {e' : Expression} (h : Derives level n ts e)
    (h' : Derives level n ts' e') (heq : ts ++ rest = ts' ++ rest') (hrest : Halts level n rest)
    (hrest' : Halts level n rest') (hn : n ≤ unaryLevel) : e = e' ∧ rest = rest' := by
  have hroot := h.le_root hn
  have hroot' := h'.le_root hn
  have hread := h.reads hlevel (Nat.le_refl n) (hrest.mono (by omega)) (extend_halts hrest e)
  have hread' := h'.reads hlevel (Nat.le_refl n) (hrest'.mono (by omega)) (extend_halts hrest' e')
  rw [heq] at hread
  exact Prod.mk.inj (hread.unique hread')

theorem Derives.unique {e' : Expression} (h : Derives level 0 ts e) (h' : Derives level 0 ts e') :
    e = e' := by
  have heq : ts ++ [] = ts ++ [] := rfl
  exact (h.unique_split hlevel h' heq halts_nil halts_nil (Nat.zero_le _)).1

end

theorem Operator.level_lt (op : Operator) : op.level < unaryLevel := by cases op <;> decide

/-- An expression that a text can be read as by the rules of C. -/
def Reads (text : String) (e : Expression) : Prop := Derives Operator.level 0 (lexemes text.toList) e

end Throbac.C
