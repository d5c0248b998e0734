import Throbac.Program.CText

/-!
# Numerals that can be written

The text of a program can be written if and only if all its numerals can. The first one that is too
long, in the order of the program, is the one that is named.
-/
namespace Throbac

mutual

/-- The numerals of an expression from left to right. -/
def Expr.numerals : Expr → List Numeral
  | .number n => [n]
  | .string _ | .bool _ | .name _ => []
  | .parens e | .negation _ e => e.numerals
  | .mulDiv _ l r | .addSub _ l r | .concatenation l r | .compare _ l r => l.numerals ++ r.numerals
  | .call _ es => Expr.numeralsAll es

def Expr.numeralsAll : List Expr → List Numeral
  | [] => []
  | e :: es => e.numerals ++ Expr.numeralsAll es

end

mutual

def Statement.numerals : Statement → List Numeral
  | .assignment _ e | .printNumber e | .printString e | .printBool e | .giveBack (some e) => e.numerals
  | .loop e ss | .branch e ss none => e.numerals ++ Statement.numeralsAll ss
  | .branch e ss (some ts) => e.numerals ++ (Statement.numeralsAll ss ++ Statement.numeralsAll ts)
  | .giveBack none => []
  | .call i => Expr.numeralsAll i.arguments

def Statement.numeralsAll : List Statement → List Numeral
  | [] => []
  | s :: ss => s.numerals ++ Statement.numeralsAll ss

end

def Script.numerals (s : Script) : List Numeral :=
  s.functions.flatMap (fun f => Statement.numeralsAll f.body.block) ++
    Statement.numeralsAll s.main.block

def Phrase.numerals : Phrase → List Numeral
  | .script s => s.numerals
  | .funcDef f => Statement.numeralsAll f.body.block
  | .main b | .body b => Statement.numeralsAll b.block
  | .varDec _ | .nameDef _ | .varBlock _ => []
  | .block ss => Statement.numeralsAll ss
  | .statement s => s.numerals
  | .expr e => e.numerals
  | .funcCall i => Expr.numeralsAll i.arguments

/-- The numeral has no more digits than can be written. -/
def Numeral.Short (n : Numeral) : Prop := n.digits.length ≤ maxDigits

/-- The text is written if all the numerals are short, and otherwise one that is not is named. -/
def Renders {α : Type} (ns : List Numeral) (m : Except Fault α) : Prop :=
  (∃ a, m = .ok a) ∧ (∀ n ∈ ns, n.Short) ∨
    ∃ n ∈ ns, ¬ n.Short ∧ m = .error (.tooManyDigits n.digits.length)

namespace Renders

variable {α β : Type} {ns ns' : List Numeral} {m : Except Fault α}

theorem pure (a : α) : Renders [] (.ok a) := .inl ⟨⟨a, rfl⟩, by simp⟩

theorem bind {f : α → Except Fault β} (h : Renders ns m) (hf : ∀ a, Renders ns' (f a)) :
    Renders (ns ++ ns') (m >>= f) := by
  rcases h with ⟨⟨a, rfl⟩, hshort⟩ | ⟨n, hn, hlong, rfl⟩
  · rcases hf a with ⟨⟨b, hb⟩, hshort'⟩ | ⟨n, hn, hlong, he⟩
    · exact .inl ⟨⟨b, hb⟩, List.forall_mem_append.2 ⟨hshort, hshort'⟩⟩
    · exact .inr ⟨n, List.mem_append_right _ hn, hlong, he⟩
  · exact .inr ⟨n, List.mem_append_left _ hn, hlong, rfl⟩

theorem map {f : α → β} (h : Renders ns m) : Renders ns (m >>= fun a => Pure.pure (f a)) := by
  have hbind : Renders (ns ++ []) (m >>= fun a => Pure.pure (f a)) := h.bind fun a => Renders.pure (f a)
  rwa [List.append_nil] at hbind

end Renders

theorem Numeral.renders_decimal (n : Numeral) : Renders [n] n.decimal := by
  unfold decimal
  split
  · next hlong => exact .inr ⟨n, List.mem_cons_self, Nat.not_le.2 hlong, rfl⟩
  · next hshort => exact .inl ⟨⟨_, rfl⟩, List.forall_mem_singleton.2 (Nat.not_lt.1 hshort)⟩

mutual

theorem Expr.renders : (e : Expr) → Renders e.numerals e.toC
  | .number n => n.renders_decimal
  | .string _ | .bool _ | .name _ => .pure _
  | .parens e | .negation _ e => e.renders.map
  | .mulDiv _ l r | .addSub _ l r | .concatenation l r | .compare _ l r =>
    l.renders.bind fun _ => r.renders.map
  | .call _ es => (Expr.renders_all es).map

theorem Expr.renders_all : (es : List Expr) → Renders (Expr.numeralsAll es) (Expr.allToC es)
  | [] => .pure _
  | e :: es => e.renders.bind fun _ => (Expr.renders_all es).map

end

mutual

theorem Statement.renders : (s : Statement) → Renders s.numerals s.toC
  | .assignment _ e | .printNumber e | .printString e | .printBool e | .giveBack (some e) => by
    rw [Statement.numerals, Statement.toC]
    exact e.renders.map
  | .loop e ss | .branch e ss none => by
    rw [Statement.numerals, Statement.toC, Statement.blockToC]
    exact e.renders.bind fun _ => (Statement.renders_all ss).map.map
  | .branch e ss (some ts) => by
    rw [Statement.numerals, Statement.toC, Statement.blockToC, Statement.blockToC]
    exact e.renders.bind fun _ => (Statement.renders_all ss).map.bind fun _ =>
      (Statement.renders_all ts).map.map
  | .giveBack none => by
    rw [Statement.numerals, Statement.toC]
    exact .pure _
  | .call i => by
    rw [Statement.numerals, Statement.toC]
    exact (Expr.renders (.call i.function i.arguments)).map

theorem Statement.renders_all : (ss : List Statement) →
    Renders (Statement.numeralsAll ss) (Statement.allToC ss)
  | [] => by
    rw [Statement.numeralsAll, Statement.allToC]
    exact .pure _
  | s :: ss => by
    rw [Statement.numeralsAll, Statement.allToC]
    exact s.renders.bind fun _ => (Statement.renders_all ss).map

end

theorem Statement.renders_block (ss : List Statement) :
    Renders (Statement.numeralsAll ss) (Statement.blockToC ss) := by
  rw [Statement.blockToC]
  exact (Statement.renders_all ss).map

theorem ProgramBody.renders (b : ProgramBody) : Renders (Statement.numeralsAll b.block) b.toC :=
  (Statement.renders_block b.block).map

theorem FuncDef.renders (f : FuncDef) : Renders (Statement.numeralsAll f.body.block) f.toC :=
  f.body.renders.map

theorem FuncDef.renders_all (fs : List FuncDef) :
    Renders (fs.flatMap fun f => Statement.numeralsAll f.body.block) (fs.mapM FuncDef.toC) := by
  induction fs with
  | nil => exact .pure _
  | cons f fs ih =>
    rw [List.mapM_cons]
    exact f.renders.bind fun _ => ih.map

theorem Script.renders (s : Script) : Renders s.numerals s.toC :=
  (FuncDef.renders_all s.functions).bind fun _ => s.main.renders.map.map

theorem Phrase.renders : (p : Phrase) → Renders p.numerals p.toC
  | .script s => s.renders
  | .funcDef f => f.renders
  | .main b => b.renders.map
  | .body b => b.renders
  | .varDec _ | .nameDef _ | .varBlock _ => .pure _
  | .block ss => Statement.renders_block ss
  | .statement s => s.renders
  | .expr e => e.renders
  | .funcCall i => Expr.renders (.call i.function i.arguments)

end Throbac
