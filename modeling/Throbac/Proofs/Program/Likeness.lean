import Throbac.Proofs.Program.Retrieval
import Throbac.Proofs.Program.Translation

/-!
# Likeness

Two programs have the same text just if their trees are alike, that is, if they differ only in where
their words stand, in the word for negation and in how a value is written.
-/
namespace Throbac

namespace ParseTree

variable {t : ParseTree}

/-- The value of a phrase that is a numeral or a truth value. -/
def constant? : ParseTree → Option Nat
  | node i [leaf x _] =>
    match i.kind with
    | .number => (x.text.bind Numeral.ofText?).map Numeral.value
    | .bool => some (if x.text = some "VERUM" then 1 else 0)
    | _ => none
  | _ => none

mutual

/-- The tree without places, with one word for negation, and with every constant as the numeral of its
value. -/
def blur : ParseTree → ParseTree
  | leaf x e => if x.type = Word.negans then literal 19 else leaf (Token.thin x.type x.text) e
  | node i cs =>
    match constant? (node i cs) with
    | some v => phrase .number [word 33 (Numeral.ofNat v).text]
    | none => phrase i.kind (blurAll cs)

def blurAll : List ParseTree → List ParseTree
  | [] => []
  | c :: cs => c.blur :: blurAll cs

end

/-- The trees are the same up to places, the word for negation, and how a value is written. -/
def Alike (t t' : ParseTree) : Prop := t.blur = t'.blur

theorem blurAll_eq (cs : List ParseTree) : blurAll cs = cs.map blur := by
  induction cs with
  | nil => rfl
  | cons c cs ih => rw [blurAll, ih, List.map_cons]

theorem constant?_bare (t : ParseTree) : t.bare.constant? = t.constant? := by
  cases t with
  | leaf => rfl
  | node i cs =>
    rw [bare_node]
    rcases cs with _ | ⟨c, _ | ⟨d, cs⟩⟩
    · rfl
    · cases c <;>
        simp only [List.map_cons, List.map_nil, bare, phrase, constant?, Token.text_thin]
    · cases c <;> rfl

theorem blur_bare (t : ParseTree) : t.bare.blur = t.blur := by
  induction h : sizeOf t using Nat.strongRecOn generalizing t with
  | _ n ih =>
    cases t with
    | leaf x e => simp only [bare, blur, Token.text_thin]; rfl
    | node i cs =>
      have hconstant := constant?_bare (node i cs)
      have hparts : (cs.map bare).map blur = cs.map blur := by
        rw [List.map_map]
        refine List.map_congr_left fun c hc => ih (sizeOf c) ?_ c rfl
        have hlt := List.sizeOf_lt_of_mem hc
        simp only [node.sizeOf_spec] at h
        omega
      rw [bare_node] at hconstant ⊢
      rw [phrase, blur, blur, blurAll_eq, blurAll_eq, hparts]
      rw [phrase] at hconstant
      rw [hconstant]

theorem rule?_bare (t : ParseTree) : t.bare.rule? = t.rule? := by
  cases t with
  | leaf => rfl
  | node i cs => rw [bare_node]; rfl

@[simp] theorem blur_word {y : Int} (s : String) (hy : y ≠ 20) : (word y s).blur = word y s := by
  have htype : (Token.thin y (some s)).type ≠ Word.negans := hy
  rw [word, blur, if_neg htype]
  rfl

@[simp] theorem blur_literal {n : Nat} (hn : n ≠ 20) : (literal n).blur = literal n :=
  blur_word _ (by omega)

@[simp] theorem blur_phrase {k : NodeKind} (hnumber : k ≠ .number) (hbool : k ≠ .bool) (cs : List ParseTree) :
    (phrase k cs).blur = phrase k (cs.map blur) := by
  have hconstant : (node { kind := k } cs).constant? = none := by
    unfold constant?
    split
    · rename_i heq
      obtain ⟨rfl, rfl⟩ := node.inj heq
      cases k <;> first | rfl | contradiction
    · rfl
  rw [phrase, blur, hconstant, blurAll_eq]

end ParseTree

open ParseTree (word literal phrase blur_word blur_literal blur_phrase)

mutual

theorem Expr.blur_tree : (e : Expr) → e.Sound → e.tree.blur = e.plain.tree
  | .number n, h => by
    have hconstant : (Expr.number n).tree.constant? = some n.value := by
      simp [Expr.tree, phrase, word, ParseTree.constant?, Token.text_thin, Numeral.ofText?_text h]
    rw [Expr.tree, phrase] at hconstant ⊢
    rw [ParseTree.blur, hconstant]
    rfl
  | .bool b, _ => by
    have hconstant : (Expr.bool b).tree.constant? = some b.toNat := by
      cases b <;> rfl
    rw [Expr.tree, phrase] at hconstant ⊢
    rw [ParseTree.blur, hconstant]
    rfl
  | .string s, _ | .name x, _ => by
    rw [Expr.tree, blur_phrase (by decide) (by decide), List.map_singleton, blur_word _ (by decide)]
    rfl
  | .parens e, h => by
    simp [Expr.tree, plain, e.blur_tree h]
  | .negation w e, h => by
    have hw : (literal w.symbol).blur = literal 19 := by cases w <;> rfl
    simp only [Expr.tree, plain, blur_phrase, ne_eq, reduceCtorEq, not_false_eq_true, List.map_cons,
      List.map_nil, hw, e.blur_tree h]
    rfl
  | .mulDiv op l r, h | .addSub op l r, h | .compare op l r, h => by
    have hop : (literal op.symbol).blur = literal op.symbol := by cases op <;> rfl
    simp [Expr.tree, plain, hop, l.blur_tree h.1, r.blur_tree h.2]
  | .concatenation l r, h => by
    simp [Expr.tree, plain, l.blur_tree h.1, r.blur_tree h.2]
  | .call f es, h => by
    simp [Expr.tree, plain, Expr.blur_listed (n := 1) (by decide) es h.2]

theorem Expr.blur_listed {n : Nat} (hn : n ≠ 20) : (es : List Expr) → Expr.SoundAll es →
    (Expr.listed n es).map ParseTree.blur = Expr.listed n (Expr.plainAll es)
  | [], _ => by simp [Expr.listed, Expr.plainAll]
  | e :: es, h => by
    simp [Expr.listed, Expr.plainAll, blur_literal hn, e.blur_tree h.1,
      Expr.blur_listed (n := 2) (by decide) es h.2]

end

theorem Invocation.blur_tree {i : Invocation} (h : i.expr.Sound) :
    i.tree.blur = (Invocation.mk i.function (Expr.plainAll i.arguments)).tree := by
  simp [Invocation.tree, Expr.blur_listed (n := 1) (by decide) i.arguments h.2]

mutual

theorem Statement.blur_tree : (s : Statement) → (∀ e ∈ s.exprs, e.Sound) → s.tree.blur = s.plain.tree
  | .assignment x e, h => by
    rw [exprs] at h
    simp [Statement.tree, plain, e.blur_tree (h e (by simp))]
  | .loop e ss, h | .branch e ss none, h => by
    rw [exprs] at h
    simp [Statement.tree, plain, blur_phrase, blur_literal, e.blur_tree (h e (by simp)),
      Statement.blur_trees ss fun d hd => h d (by simp [hd])]
  | .branch e ss (some ts), h => by
    rw [exprs] at h
    simp [Statement.tree, plain, blur_phrase, blur_literal, e.blur_tree (h e (by simp)),
      Statement.blur_trees ss fun d hd => h d (by simp [hd]),
      Statement.blur_trees ts fun d hd => h d (by simp [hd])]
  | .printNumber e, h | .printString e, h | .printBool e, h | .giveBack (some e), h => by
    rw [exprs] at h
    simp [Statement.tree, plain, e.blur_tree (h e (by simp))]
  | .giveBack none, h => by simp [Statement.tree, plain]
  | .call i, h => by
    rw [exprs] at h
    simp [Statement.tree, plain, Invocation.blur_tree (h i.expr (by simp))]

theorem Statement.blur_trees : (ss : List Statement) → (∀ e ∈ Statement.exprsAll ss, e.Sound) →
    (Statement.trees ss).map ParseTree.blur = Statement.trees (Statement.plainAll ss)
  | [], _ => by simp [Statement.trees, plainAll]
  | s :: ss, h => by
    rw [exprsAll] at h
    simp [Statement.trees, plainAll, s.blur_tree fun d hd => h d (by simp [hd]),
      Statement.blur_trees ss fun d hd => h d (by simp [hd])]

end

theorem NameDef.blur_tree (d : NameDef) : d.tree.blur = d.tree := by
  simp [NameDef.tree]

theorem NameDef.blur_declarationTree (d : NameDef) : d.declarationTree.blur = d.declarationTree := by
  simp [NameDef.declarationTree, d.blur_tree]

theorem NameDef.blur_listed {n : Nat} (hn : n ≠ 20) (ds : List NameDef) :
    (NameDef.listed n ds).map ParseTree.blur = NameDef.listed n ds := by
  induction ds generalizing n with
  | nil => rfl
  | cons d ds ih => simp [listed, blur_literal hn, d.blur_tree, ih (n := 2) (by decide)]

theorem ProgramBody.blur_tree {b : ProgramBody} (h : ∀ e ∈ b.exprs, e.Sound) :
    b.tree.blur = b.plain.tree := by
  have hblock := Statement.blur_trees b.block fun e he => h e (List.mem_append_right _ he)
  simp [ProgramBody.tree, plain, hblock, Function.comp_def, NameDef.blur_declarationTree]

theorem FuncDef.blur_tree {f : FuncDef} (h : ∀ e ∈ f.exprs, e.Sound) : f.tree.blur = f.plain.tree := by
  have hbody := ProgramBody.blur_tree (b := f.body) fun e he => h e (by simp [exprs, he])
  cases hr : f.result <;> simp [FuncDef.tree, plain, hr, hbody, NameDef.blur_listed]

theorem Phrase.blur_tree {p : Phrase} (h : ∀ e ∈ p.exprs, e.Sound) : p.tree.blur = p.plain.tree := by
  cases p with
  | script s =>
    have hmain := ProgramBody.blur_tree (b := s.main) fun e he => h e (List.mem_append_right _ he)
    have hfuns : s.functions.map (fun f => f.tree.blur) = s.functions.map fun f => f.plain.tree := by
      refine List.map_congr_left fun f hf => FuncDef.blur_tree fun e he => h e ?_
      exact List.mem_append_left _ (List.mem_flatMap_of_mem hf he)
    simp [Phrase.tree, plain, Script.tree, hmain, Function.comp_def, hfuns, Symbol.eof]
  | funcDef f => exact FuncDef.blur_tree h
  | main b => simp [Phrase.tree, plain, ProgramBody.blur_tree h]
  | body b => exact ProgramBody.blur_tree h
  | varDec d => exact d.blur_declarationTree
  | nameDef d => exact d.blur_tree
  | varBlock ds =>
    simp [Phrase.tree, plain, Function.comp_def, NameDef.blur_declarationTree]
  | block ss => simp [Phrase.tree, plain, Statement.blur_trees ss h]
  | statement s => exact s.blur_tree h
  | expr e => exact e.blur_tree (h e (List.mem_singleton_self e))
  | funcCall i => exact Invocation.blur_tree (h i.expr (List.mem_singleton_self _))

/-! A program is read back from its tree. -/

theorem MulOp.ofSymbol?_symbol (op : MulOp) : ofSymbol? op.symbol = some op := by cases op <;> rfl

theorem AddOp.ofSymbol?_symbol (op : AddOp) : ofSymbol? op.symbol = some op := by cases op <;> rfl

theorem CompareOp.ofSymbol?_symbol (op : CompareOp) : ofSymbol? op.symbol = some op := by cases op <;> rfl

theorem NegationWord.ofSymbol?_symbol (w : NegationWord) : ofSymbol? w.symbol = some w := by cases w <;> rfl

theorem mapM_map_read {α β : Type} {r : β → Option α} {f : α → β} {l : List α}
    (h : ∀ a ∈ l, r (f a) = some a) : (l.map f).mapM r = some l := by
  induction l with
  | nil => rfl
  | cons a l ih =>
    obtain ⟨ha, hl⟩ := List.forall_mem_cons.1 h
    simp [ha, ih hl]

theorem Expr.exists_node {e : Expr} (h : ofTree? e.tree = some e) :
    ∃ i cs, e.tree = .node i cs ∧ ofTree? (.node i cs) = some e := by
  cases e <;> exact ⟨_, _, rfl, h⟩

mutual

theorem Expr.ofTree?_tree : (e : Expr) → e.Sound → ofTree? e.tree = some e
  | .number n, h => by
    simp [tree, phrase, word, ofTree?, Token.text_thin, Numeral.ofText?_text h]
  | .string s, h => by
    simp [tree, phrase, word, ofTree?, Token.text_thin, Lexicon.stripChar_text h]
  | .bool b, _ => by cases b <;> rfl
  | .name x, _ => rfl
  | .parens e, h => by
    obtain ⟨i, cs, he, ih⟩ := exists_node (e.ofTree?_tree h)
    simp [tree, he, phrase, literal, word, ofTree?, ih]
  | .negation w e, h => by
    obtain ⟨i, cs, he, ih⟩ := exists_node (e.ofTree?_tree h)
    simp [tree, he, phrase, literal, word, ofTree?, ih, Token.thin, w.ofSymbol?_symbol]
  | .mulDiv op l r, h | .addSub op l r, h | .compare op l r, h => by
    obtain ⟨i, cs, hl, ih⟩ := exists_node (l.ofTree?_tree h.1)
    simp [tree, hl, phrase, literal, word, ofTree?, ih, r.ofTree?_tree h.2, Token.thin, op.ofSymbol?_symbol]
  | .concatenation l r, h => by
    obtain ⟨i, cs, hl, ih⟩ := exists_node (l.ofTree?_tree h.1)
    simp [tree, hl, phrase, literal, word, ofTree?, ih, r.ofTree?_tree h.2]
  | .call f es, h => by simp [tree, phrase, ofTree?, Expr.argumentsOf?_listed es h.2]

theorem Expr.argumentsOf?_listed {n : Nat} {f : String} : (es : List Expr) → Expr.SoundAll es →
    argumentsOf? (Expr.listed n es ++ [literal 32, word 37 f]) = some (es, f)
  | [], _ => rfl
  | e :: es, h => by
    obtain ⟨i, cs, he, ih⟩ := exists_node (e.ofTree?_tree h.1)
    have hrest := Expr.argumentsOf?_listed (n := 2) (f := f) es h.2
    rw [Expr.listed, List.cons_append, List.cons_append, he, literal, word, argumentsOf?, ih]
    · simp [hrest]
    · simp

end

theorem Invocation.ofTree?_tree {i : Invocation} (h : i.expr.Sound) : ofTree? i.tree = some i := by
  simp [tree, phrase, ofTree?, Expr.argumentsOf?_listed i.arguments h.2]

mutual

theorem Statement.ofTree?_tree : (s : Statement) → (∀ e ∈ s.exprs, e.Sound) → ofTree? s.tree = some s
  | .assignment x e, h => by
    rw [exprs] at h
    simp [tree, phrase, literal, word, ofTree?, Token.text_thin, e.ofTree?_tree (h e (by simp))]
  | .loop e ss, h => by
    rw [exprs] at h
    rw [tree]
    exact (ParseTree.ofTree?_guarded rfl (e.ofTree?_tree (h e (by simp)))
      (Statement.ofTrees?_trees ss fun d hd => h d (by simp [hd]))).1 rfl
  | .branch e ss none, h => by
    rw [exprs] at h
    rw [tree]
    exact (ParseTree.ofTree?_guarded rfl (e.ofTree?_tree (h e (by simp)))
      (Statement.ofTrees?_trees ss fun d hd => h d (by simp [hd]))).2 rfl
  | .branch e ss (some ts), h => by
    rw [exprs] at h
    simp only [tree, phrase, literal, word]
    rw [ofTree?, if_pos ⟨rfl, rfl, rfl⟩, e.ofTree?_tree (h e (by simp)),
      Statement.ofTrees?_trees ss fun d hd => h d (by simp [hd]),
      Statement.ofTrees?_trees ts fun d hd => h d (by simp [hd])]
    rfl
  | .printNumber e, h | .printString e, h | .printBool e, h | .giveBack (some e), h => by
    rw [exprs] at h
    obtain ⟨i, cs, he, ih⟩ := Expr.exists_node (e.ofTree?_tree (h e (by simp)))
    simp [tree, he, phrase, literal, word, ofTree?, ih]
  | .giveBack none, _ => by
    rw [tree]
    rfl
  | .call i, h => by
    rw [exprs] at h
    have ih := Invocation.ofTree?_tree (h i.expr (by simp))
    rw [Invocation.tree, phrase] at ih
    simp [tree, Invocation.tree, phrase, ofTree?, ih]

theorem Statement.ofTrees?_trees : (ss : List Statement) → (∀ e ∈ Statement.exprsAll ss, e.Sound) →
    Statement.ofTrees? (Statement.trees ss) = some ss
  | [], _ => by
    rw [trees]
    rfl
  | s :: ss, h => by
    rw [exprsAll] at h
    simp [trees, ofTrees?, s.ofTree?_tree fun e he => h e (List.mem_append_left _ he),
      Statement.ofTrees?_trees ss fun e he => h e (List.mem_append_right _ he)]

end

namespace NameDef

theorem ofTree?_tree (d : NameDef) : ofTree? d.tree = some d := by
  simp [tree, phrase, literal, word, ofTree?, Token.text_thin, d.type.ofWord_word, Except.toOption]

theorem ofDeclaration?_tree (d : NameDef) : ofDeclaration? d.declarationTree = some d := by
  simp [declarationTree, phrase, literal, word, ofDeclaration?, d.ofTree?_tree]

theorem variablesOf?_trees (ds : List NameDef) :
    variablesOf? (phrase .varBlock (ds.map declarationTree)) = some ds := by
  simp [variablesOf?, phrase, mapM_map_read fun d _ => ofDeclaration?_tree d]

theorem parametersOf?_listed {n m : Nat} {x : String} (ds : List NameDef) (ts : List ParseTree) :
    parametersOf? (listed n ds ++ literal m :: word 37 x :: ts) = some (ds, literal m :: word 37 x :: ts) := by
  induction ds generalizing n with
  | nil => rfl
  | cons d ds ih =>
    have hd := d.ofTree?_tree
    rw [tree, phrase] at hd
    rw [listed, List.cons_append, List.cons_append, tree, phrase, literal, word, parametersOf?, hd]
    simp [ih]

end NameDef

theorem ProgramBody.ofTree?_tree {b : ProgramBody} (h : ∀ e ∈ b.exprs, e.Sound) : ofTree? b.tree = some b := by
  have hblock := Statement.ofTrees?_trees b.block fun e he => h e (List.mem_append_right _ he)
  have hdeclared := NameDef.variablesOf?_trees b.declared
  rw [phrase] at hdeclared
  simp [tree, phrase, ofTree?, blockOf?, hblock, hdeclared]

theorem ProgramBody.ofMain?_tree {b : ProgramBody} (h : ∀ e ∈ b.exprs, e.Sound) :
    ofMain? (phrase .main [b.tree]) = some b := by
  simp [phrase, ofMain?, ofTree?_tree h]

theorem FuncDef.ofTree?_tree {f : FuncDef} (h : ∀ e ∈ f.exprs, e.Sound) : ofTree? f.tree = some f := by
  obtain ⟨x, ds, r, b⟩ := f
  have hbody : ProgramBody.ofTree? b.tree = some b :=
    ProgramBody.ofTree?_tree fun e he => h e (by simp [exprs, he])
  rw [tree, phrase, ofTree?, if_neg (not_not.2 rfl), NameDef.parametersOf?_listed]
  cases r <;> simp [literal, word, Token.text_thin, hbody, ValueType.ofWord_word, Except.toOption]

theorem Script.ofTree?_tree {s : Script} (hfuns : ∀ f ∈ s.functions, ∀ e ∈ f.exprs, e.Sound)
    (hmain : ∀ e ∈ s.main.exprs, e.Sound) : ofTree? s.tree = some s := by
  have hread := mapM_map_read fun f hf => FuncDef.ofTree?_tree (hfuns f hf)
  have hlast := ProgramBody.ofMain?_tree hmain
  rw [phrase] at hlast
  simp [tree, phrase, ofTree?, word, hread, hlast]

theorem Phrase.ofTree?_tree {p : Phrase} (h : ∀ e ∈ p.exprs, e.Sound) : ofTree? p.tree = some p := by
  cases p with
  | script s =>
    refine congrArg (Option.map script) (Script.ofTree?_tree (fun f hf e he => h e ?_) fun e he => h e ?_)
    · exact List.mem_append_left _ (List.mem_flatMap_of_mem hf he)
    · exact List.mem_append_right _ he
  | funcDef f => exact congrArg (Option.map funcDef) (FuncDef.ofTree?_tree h)
  | main b => exact congrArg (Option.map main) (ProgramBody.ofMain?_tree h)
  | body b => exact congrArg (Option.map body) (ProgramBody.ofTree?_tree h)
  | varDec d => exact congrArg (Option.map varDec) d.ofDeclaration?_tree
  | nameDef d => exact congrArg (Option.map nameDef) d.ofTree?_tree
  | varBlock ds => exact congrArg (Option.map varBlock) (NameDef.variablesOf?_trees ds)
  | block ss => exact congrArg (Option.map block) (Statement.ofTrees?_trees ss h)
  | statement s =>
    have hread : ofTree? s.tree = (Statement.ofTree? s.tree).map statement :=
      ParseTree.ofTree?_statement (rule?_tree (.statement s))
    simp [tree, hread, s.ofTree?_tree h]
  | expr e =>
    have hread : ofTree? e.tree = (Expr.ofTree? e.tree).map expr :=
      ParseTree.ofTree?_expr (rule?_tree (.expr e))
    simp [tree, hread, e.ofTree?_tree (h e (List.mem_singleton_self e))]
  | funcCall i =>
    exact congrArg (Option.map funcCall) (Invocation.ofTree?_tree (h i.expr (List.mem_singleton_self _)))

theorem Phrase.tree_inj {p p' : Phrase} (h : ∀ e ∈ p.exprs, e.Sound)
    (h' : ∀ e ∈ p'.exprs, e.Sound) (heq : p.tree = p'.tree) : p = p' := by
  have hread := congrArg ofTree? heq
  rw [ofTree?_tree h, ofTree?_tree h'] at hread
  exact Option.some.inj hread

/-! Plain programs. -/

mutual

theorem Statement.exprs_plain : (s : Statement) → s.plain.exprs = s.exprs.map Expr.plain
  | .assignment _ _ | .printNumber _ | .printString _ | .printBool _ | .giveBack (some _)
  | .call _ => by
    rw [plain, exprs, exprs]
    rfl
  | .giveBack none => by
    rw [plain, exprs]
    rfl
  | .loop e ss | .branch e ss none => by
    rw [plain, exprs, exprs, Statement.exprsAll_plainAll ss]
    rfl
  | .branch e ss (some ts) => by
    rw [plain, exprs, exprs, Statement.exprsAll_plainAll ss, Statement.exprsAll_plainAll ts, List.map_cons,
      List.map_append]

theorem Statement.exprsAll_plainAll : (ss : List Statement) →
    Statement.exprsAll (Statement.plainAll ss) = (Statement.exprsAll ss).map Expr.plain
  | [] => by
    rw [plainAll, exprsAll]
    rfl
  | s :: ss => by
    rw [plainAll, exprsAll, exprsAll, s.exprs_plain, Statement.exprsAll_plainAll ss, List.map_append]

end

theorem ProgramBody.exprs_plain (b : ProgramBody) : b.plain.exprs = b.exprs.map Expr.plain := by
  simp [exprs, plain, Statement.exprsAll_plainAll, Function.comp_def, NameDef.expr, Expr.plain]

theorem FuncDef.exprs_plain (f : FuncDef) : f.plain.exprs = f.exprs.map Expr.plain := by
  simp [exprs, plain, ProgramBody.exprs_plain, Function.comp_def, NameDef.expr, Expr.plain]

theorem Phrase.exprs_plain (p : Phrase) : p.plain.exprs = p.exprs.map Expr.plain := by
  cases p with
  | script s =>
    simp [exprs, plain, ProgramBody.exprs_plain, List.flatMap_map, FuncDef.exprs_plain, List.map_flatMap]
  | funcDef f => exact f.exprs_plain
  | main b => exact b.exprs_plain
  | body b => exact b.exprs_plain
  | varBlock ds => simp [exprs, plain, Function.comp_def, NameDef.expr, Expr.plain]
  | block ss => exact Statement.exprsAll_plainAll ss
  | statement s => exact s.exprs_plain
  | _ => rfl

theorem Phrase.sound_plain {p : Phrase} (h : ∀ e ∈ p.exprs, e.Sound) : ∀ e ∈ p.plain.exprs, e.Sound := by
  intro e he
  rw [exprs_plain] at he
  obtain ⟨d, hd, rfl⟩ := List.mem_map.1 he
  exact d.sound_plain (h d hd)

mutual

theorem Statement.written_plain : (s : Statement) → s.plain.written = s.written
  | .assignment _ e | .printNumber e | .printString e | .printBool e | .giveBack (some e) => by
    rw [plain, written, written, e.written_plain]
  | .giveBack none => by rw [plain]
  | .call i => by
    rw [plain, written, written, ← i.expr.written_plain]
    rfl
  | .loop e ss | .branch e ss none => by
    rw [plain, written, written, e.written_plain, Statement.writtenAll_plainAll ss]
  | .branch e ss (some ts) => by
    rw [plain, written, written, e.written_plain, Statement.writtenAll_plainAll ss,
      Statement.writtenAll_plainAll ts]

theorem Statement.writtenAll_plainAll : (ss : List Statement) →
    Statement.writtenAll (Statement.plainAll ss) = Statement.writtenAll ss
  | [] => by rw [plainAll]
  | s :: ss => by
    rw [plainAll, writtenAll, writtenAll, s.written_plain, Statement.writtenAll_plainAll ss]

end

theorem ProgramBody.written_plain (head : List Char) (b : ProgramBody) :
    b.plain.written head = b.written head := by
  rw [written, written, plain, Statement.writtenAll_plainAll]

theorem FuncDef.written_plain (f : FuncDef) : f.plain.written = f.written :=
  f.body.written_plain _

theorem Phrase.written_plain (p : Phrase) : p.plain.written = p.written := by
  cases p with
  | script s =>
    have hdeclared : (fun f : FuncDef => f.declaration.toList) ∘ FuncDef.plain =
        fun f => f.declaration.toList := rfl
    rw [plain, written, written, Script.written, Script.written, ProgramBody.written_plain, List.map_map,
      hdeclared, List.flatMap_map, List.flatMap_congr fun f _ => f.written_plain]
  | funcDef f => exact f.written_plain
  | main b => exact b.written_plain _
  | body b => exact b.written_plain _
  | block ss => rw [plain, written, written, Statement.writtenAll_plainAll]
  | statement s => exact s.written_plain
  | expr e => rw [plain, written, written, e.written_plain]
  | funcCall i =>
    rw [written, ← i.expr.written_plain]
    rfl
  | _ => rfl

theorem Phrase.printable {p : Phrase} (h : ∀ e ∈ p.exprs, e.Sound) {c : String} (hc : p.toC = .ok c) :
    ∀ e ∈ p.exprs, e.Printable := by
  intro e he
  refine ⟨Expr.Sound.spelled e (h e he), ?_⟩
  have hshort : ∀ n ∈ p.numerals, n.Short := by
    rcases p.renders with ⟨_, hshort⟩ | ⟨_, _, _, herror⟩
    · exact hshort
    · rw [hc] at herror
      cases herror
  have hsub := (Phrase.holds_of_mem he).numerals (h e he)
  rw [Phrase.numerals_tree h] at hsub
  rcases e.renders with ⟨⟨_, hok⟩, _⟩ | ⟨n, hn, hlong, _⟩
  · exact e.short_of_toC hok
  · exact absurd (hshort n (hsub hn)) hlong

open ParseTree (Alike)
open Lexicon (Cuts tape)

theorem exists_legible {t : ParseTree} (h : Derived t) (hw : t.Worded) {n : Nat} (hr : t.rule? = some (n : Int))
    (hcanonical : t.Canonical) {c : String} (hc : treeToC t = .ok c) :
    ∃ p : Phrase, p.rule = n ∧ p.plain.tree = t.blur ∧ (∀ e ∈ p.exprs, e.Legible) ∧
      c = Text.glue p.written := by
  obtain ⟨p, hp, htree, hsound, _⟩ := ParseTree.exists_phrase h hw hr
  have hcanonical : p.tree.Canonical := htree ▸ ParseTree.canonical_bare.2 hcanonical
  have htext : p.toC = .ok c := by
    simp only [treeToC, hp] at hc
    cases hok : p.toC with
    | error f =>
      rw [hok] at hc
      cases hc
    | ok s =>
      rw [hok] at hc
      cases hc
      rfl
  have hrule : p.rule = n := by
    have hrule := p.rule?_tree
    rw [htree, ParseTree.rule?_bare] at hrule
    exact_mod_cast Option.some.inj (hrule.symm.trans hr)
  refine ⟨p, hrule, ?_, fun e he => ⟨hsound e he, ?_⟩, ?_⟩
  · rw [← Phrase.blur_tree hsound, htree, ParseTree.blur_bare]
  · exact e.canonical_of_tree (hcanonical.of_holds (Phrase.holds_of_mem he))
  · rw [Phrase.toC_eq (Phrase.printable hsound htext)] at htext
    exact (Except.ok.inj htext).symm

namespace Grammar

theorem derived_of_parseClean {history : List (String × String)} {src rule : String} {n : Nat}
    (hrule : ruleNames.idxOf? rule = some n) {t : ParseTree}
    (h : parseClean (parserAfter (learnedFrom history) src) rule = .ok t) :
    t.rule? = some (n : Int) ∧ Derived t ∧ t.Worded ∧
      (translateAfter (learnedFrom history) src rule).1 = treeToC t := by
  obtain ⟨ps, hcuts⟩ := exists_cuts_lexerOf src
  obtain ⟨_, _, hparse', hpassed⟩ := exists_passed (learned_learnedFrom history) hcuts hrule
  obtain ⟨p, hparse, hclean⟩ := exists_of_cleanTree (congrArg Except.toOption h)
  obtain ⟨rfl, rfl⟩ := EStateM.Result.ok.inj (hparse.symm.trans hparse')
  obtain ⟨hr, hderived, _⟩ := hpassed.sound hclean
  exact ⟨hr, hderived, worded_of_passed hcuts hpassed hclean,
    congrArg Prod.fst (translateAfter_of_clean hparse hclean).2⟩

/-- Two sources whose trees are canonical are translated to the same text just if the trees are alike,
whatever was translated before each of them. -/
theorem translate_eq_iff_alike {rule : String} (hrule : rule ∈ ruleNames)
    {history₁ history₂ : List (String × String)} {src₁ src₂ : String} {t₁ t₂ : ParseTree}
    (h₁ : parseClean (parserAfter (learnedFrom history₁) src₁) rule = .ok t₁) (hcanonical₁ : t₁.Canonical)
    (h₂ : parseClean (parserAfter (learnedFrom history₂) src₂) rule = .ok t₂) (hcanonical₂ : t₂.Canonical)
    {c₁ c₂ : String} (hc₁ : (translateAfter (learnedFrom history₁) src₁ rule).1 = .ok c₁)
    (hc₂ : (translateAfter (learnedFrom history₂) src₂ rule).1 = .ok c₂) :
    c₁ = c₂ ↔ Alike t₁ t₂ := by
  obtain ⟨n, hn⟩ := exists_idxOf hrule
  obtain ⟨hr₁, hderived₁, hw₁, htext₁⟩ := derived_of_parseClean hn h₁
  obtain ⟨hr₂, hderived₂, hw₂, htext₂⟩ := derived_of_parseClean hn h₂
  rw [htext₁] at hc₁
  rw [htext₂] at hc₂
  obtain ⟨p₁, hrule₁, hblur₁, hlegible₁, rfl⟩ := exists_legible hderived₁ hw₁ hr₁ hcanonical₁ hc₁
  obtain ⟨p₂, hrule₂, hblur₂, hlegible₂, rfl⟩ := exists_legible hderived₂ hw₂ hr₂ hcanonical₂ hc₂
  have hrules : p₁.rule = p₂.rule := hrule₁.trans hrule₂.symm
  rw [Alike, ← hblur₁, ← hblur₂]
  constructor
  · intro heq
    have hlines := Text.glue_inj p₁.written_ne_nil p₂.written_ne_nil
      (Phrase.newline_not_mem fun e he => (hlegible₁ e he).spelled)
      (Phrase.newline_not_mem fun e he => (hlegible₂ e he).spelled) heq
    rw [Phrase.plain_eq hrules hlegible₁ hlegible₂ hlines]
  · intro heq
    have hplain := Phrase.tree_inj (Phrase.sound_plain fun e he => (hlegible₁ e he).sound)
      (Phrase.sound_plain fun e he => (hlegible₂ e he).sound) heq
    rw [← p₁.written_plain, hplain, p₂.written_plain]

/-- Two words for negation: the trees differ in them and are alike, and the texts are the same. -/
theorem translate_eq_iff_alike_negation :
    ∃ t₁ t₂, parseClean (parserAfter (learnedFrom []) "NI a") "expr" = .ok t₁ ∧
      parseClean (parserAfter (learnedFrom [("NI a", "expr")]) "NEGANS a") "expr" = .ok t₂ ∧
      t₁.leaves.map Token.type = [19, 37] ∧ t₂.leaves.map Token.type = [20, 37] ∧
      (translateAfter (learnedFrom []) "NI a" "expr").1 = .ok "(-a)" ∧
      (translateAfter (learnedFrom [("NI a", "expr")]) "NEGANS a" "expr").1 = .ok "(-a)" ∧ Alike t₁ t₂ := by
  obtain ⟨t₁, _, t₂, _, hparse₁, hread₁, hparse₂, hread₂⟩ := exists_negations
  obtain ⟨_, hcanonical₁, hwords₁, _, h₁, hc₁⟩ := of_readsAs hparse₁ hread₁
  obtain ⟨_, hcanonical₂, hwords₂, _, h₂, hc₂⟩ := of_readsAs hparse₂ hread₂
  have hexpr : "expr" ∈ ruleNames := by simp [ruleNames]
  exact ⟨t₁, t₂, h₁, h₂, hwords₁, hwords₂, congrArg Prod.fst hc₁, congrArg Prod.fst hc₂,
    (translate_eq_iff_alike hexpr h₁ hcanonical₁ h₂ hcanonical₂ (congrArg Prod.fst hc₁)
      (congrArg Prod.fst hc₂)).1 rfl⟩

end Grammar

end Throbac
