import Throbac.Program.OfTree
import Throbac.Proofs.Program.Unparse

/-!
# Programs of derived trees

Every derived tree whose leaves are words of a source can be read: each phrase has just the parts
that are looked for. Up to the places of its words, the tree is the tree of the program.
-/
namespace Throbac

theorem ValueType.ofWord_word (t : ValueType) : ofWord t.word = .ok t := by cases t <;> rfl

namespace ParseTree

variable {i : NodeInfo} {cs : List ParseTree} {t : ParseTree} {x : Token}

/-- The tree is read as a phrase, of which it is the tree. -/
def Readable (t : ParseTree) : Prop := ∃ p, Phrase.ofTree? t = some p ∧ p.tree = t.bare

theorem Readable.read {α : Type} {r : ParseTree → Option α} {f : α → Phrase} (h : Readable t)
    (ht : Phrase.ofTree? t = (r t).map f) : ∃ a, r t = some a ∧ (f a).tree = t.bare := by
  obtain ⟨p, hp, hn⟩ := h
  rw [ht, Option.map_eq_some_iff] at hp
  obtain ⟨a, ha, rfl⟩ := hp
  exact ⟨a, ha, hn⟩

theorem ofTree?_expr (h : t.rule? = some 9) : Phrase.ofTree? t = (Expr.ofTree? t).map .expr := by
  cases t with
  | leaf => cases h
  | node i cs =>
    obtain ⟨kind⟩ := i
    cases kind <;> first | rfl | cases h

theorem ofTree?_statement (h : t.rule? = some 8) :
    Phrase.ofTree? t = (Statement.ofTree? t).map .statement := by
  cases t with
  | leaf => cases h
  | node i cs =>
    obtain ⟨kind⟩ := i
    cases kind <;> first | rfl | cases h

theorem kind_of_rule {n : Int} (h : t.rule? = some n) : ∃ i cs, t = node i cs ∧
    (n = 1 → i.kind = .funcDef) ∧ (n = 2 → i.kind = .main) ∧ (n = 3 → i.kind = .body) ∧
    (n = 4 → i.kind = .varDec) ∧ (n = 5 → i.kind = .nameDef) ∧ (n = 6 → i.kind = .varBlock) ∧
    (n = 7 → i.kind = .block) ∧ (n = 10 → i.kind = .funcCall) := by
  cases t with
  | leaf => cases h
  | node i cs =>
    obtain rfl : i.kind.rule = n := Option.some.inj h
    refine ⟨i, cs, rfl, ?_⟩
    cases i.kind <;> simp [NodeKind.rule]

theorem bare_word {s : String} {y : Int} (hx : x.type = y) (hs : x.text = some s) :
    (leaf x false).bare = word y s := by
  rw [bare, word, hx, hs]

theorem bare_literal (hw : Worded (leaf x false)) {n : Nat} (hx : x.type = n) (hpos : 0 < n)
    (hlt : n < 33) : (leaf x false).bare = literal n := by
  obtain ⟨s, hs, hfits⟩ := hw.leaf
  rw [bare_word hx hs, hfits.literal n hx hpos hlt, literal]

namespace Readable

theorem expr (h : Readable t) (hr : t.rule? = some 9) :
    ∃ e, Expr.ofTree? t = some e ∧ e.tree = t.bare :=
  h.read (ofTree?_expr hr)

theorem statement (h : Readable t) (hr : t.rule? = some 8) :
    ∃ s, Statement.ofTree? t = some s ∧ s.tree = t.bare :=
  h.read (ofTree?_statement hr)

theorem call (h : Readable t) (hr : t.rule? = some 10) :
    ∃ i cs arguments name, t = node i cs ∧ i.kind = .funcCall ∧
      argumentsOf? cs = some (arguments, name) ∧ (Invocation.mk name arguments).tree = t.bare := by
  obtain ⟨i, cs, rfl, -, -, -, -, -, -, -, hk⟩ := kind_of_rule hr
  obtain ⟨a, ha, hn⟩ := h.read (r := Invocation.ofTree?) (f := .funcCall)
    (by simp [Phrase.ofTree?, kind?, hk rfl])
  simp only [Invocation.ofTree?, hk rfl, if_true, Option.map_eq_some_iff] at ha
  obtain ⟨⟨arguments, name⟩, hargs, rfl⟩ := ha
  exact ⟨i, cs, arguments, name, rfl, hk rfl, hargs, hn⟩

theorem block (h : Readable t) (hr : t.rule? = some 7) :
    ∃ i cs ss, t = node i cs ∧ i.kind = .block ∧ Statement.ofTrees? cs = some ss ∧
      phrase .block (Statement.trees ss) = t.bare := by
  obtain ⟨i, cs, rfl, -, -, -, -, -, -, hk, -⟩ := kind_of_rule hr
  obtain ⟨ss, hss, hn⟩ := h.read (r := blockOf?) (f := .block) (by simp [Phrase.ofTree?, kind?, hk rfl])
  simp only [blockOf?, hk rfl, if_true] at hss
  exact ⟨i, cs, ss, rfl, hk rfl, hss, hn⟩

theorem declared (h : Readable t) (hr : t.rule? = some 6) :
    ∃ ds, variablesOf? t = some ds ∧ phrase .varBlock (ds.map NameDef.declarationTree) = t.bare := by
  obtain ⟨i, cs, rfl, -, -, -, -, -, hk, -⟩ := kind_of_rule hr
  exact h.read (f := .varBlock) (by simp [Phrase.ofTree?, kind?, hk rfl])

theorem nameDef (h : Readable t) (hr : t.rule? = some 5) :
    ∃ d, NameDef.ofTree? t = some d ∧ d.tree = t.bare := by
  obtain ⟨i, cs, rfl, -, -, -, -, hk, -⟩ := kind_of_rule hr
  exact h.read (f := .nameDef) (by simp [Phrase.ofTree?, kind?, hk rfl])

theorem varDec (h : Readable t) (hr : t.rule? = some 4) :
    ∃ d, NameDef.ofDeclaration? t = some d ∧ d.declarationTree = t.bare := by
  obtain ⟨i, cs, rfl, -, -, -, hk, -⟩ := kind_of_rule hr
  exact h.read (f := .varDec) (by simp [Phrase.ofTree?, kind?, hk rfl])

theorem body (h : Readable t) (hr : t.rule? = some 3) :
    ∃ b, ProgramBody.ofTree? t = some b ∧ b.tree = t.bare := by
  obtain ⟨i, cs, rfl, -, -, hk, -⟩ := kind_of_rule hr
  exact h.read (f := .body) (by simp [Phrase.ofTree?, kind?, hk rfl])

theorem main (h : Readable t) (hr : t.rule? = some 2) :
    ∃ b, ProgramBody.ofMain? t = some b ∧ phrase .main [b.tree] = t.bare := by
  obtain ⟨i, cs, rfl, -, hk, -⟩ := kind_of_rule hr
  exact h.read (f := .main) (by simp [Phrase.ofTree?, kind?, hk rfl])

theorem funcDef (h : Readable t) (hr : t.rule? = some 1) :
    ∃ f, FuncDef.ofTree? t = some f ∧ f.tree = t.bare := by
  obtain ⟨i, cs, rfl, hk, -⟩ := kind_of_rule hr
  exact h.read (f := .funcDef) (by simp [Phrase.ofTree?, kind?, hk rfl])

end Readable

end ParseTree

namespace Consists

variable {is : List Item} {cs : List ParseTree} {o : Option Token}

theorem phrases {r : Nat} (h : Consists (.many [.phrase r] :: is) cs o) :
    ∃ ps rest, cs = ps ++ rest ∧ (∀ p ∈ ps, p.rule? = some (r : Int)) ∧ Consists is rest o := by
  induction cs with
  | nil =>
    cases h with
    | done h => exact ⟨[], [], rfl, by simp, h⟩
    | round h => cases h
  | cons c cs ih =>
    cases h with
    | done h => exact ⟨[], _, rfl, by simp, h⟩
    | round h =>
      cases h with
      | phrase hc h =>
        obtain ⟨ps, rest, rfl, hps, hrest⟩ := ih h
        exact ⟨c :: ps, rest, rfl, List.forall_mem_cons.2 ⟨hc, hps⟩, hrest⟩

end Consists

namespace ParseTree

variable {i : NodeInfo} {cs : List ParseTree} {o : Option Token} {t : ParseTree} {x : Token}

theorem readable_of_expr {e : Expr} (hk : i.kind.rule = 9) (he : Expr.ofTree? (node i cs) = some e)
    (htree : e.tree = phrase i.kind (cs.map bare)) : Readable (node i cs) :=
  ⟨.expr e, by rw [ofTree?_expr (t := node i cs) (congrArg some hk), he]; rfl,
    htree.trans (bare_node i cs).symm⟩

theorem readable_of_statement {s : Statement} (hk : i.kind.rule = 8)
    (hs : Statement.ofTree? (node i cs) = some s) (htree : s.tree = phrase i.kind (cs.map bare)) :
    Readable (node i cs) :=
  ⟨.statement s, by rw [ofTree?_statement (t := node i cs) (congrArg some hk), hs]; rfl,
    htree.trans (bare_node i cs).symm⟩

theorem exists_node {n : Int} (h : t.rule? = some n) : ∃ i cs, t = node i cs := by
  cases t with
  | leaf => cases h
  | node i cs => exact ⟨i, cs, rfl⟩

theorem exists_mulOp {y : Int} (h : y ∈ [21, 22]) :
    ∃ op : MulOp, y = op.symbol ∧ MulOp.ofSymbol? y = some op := by
  simp only [List.mem_cons, List.not_mem_nil, or_false] at h
  rcases h with rfl | rfl
  exacts [⟨.congero, rfl, rfl⟩, ⟨.partio, rfl, rfl⟩]

theorem exists_addOp {y : Int} (h : y ∈ [23, 24]) :
    ∃ op : AddOp, y = op.symbol ∧ AddOp.ofSymbol? y = some op := by
  simp only [List.mem_cons, List.not_mem_nil, or_false] at h
  rcases h with rfl | rfl
  exacts [⟨.addo, rfl, rfl⟩, ⟨.subtraho, rfl, rfl⟩]

theorem exists_negationWord {y : Int} (h : y ∈ [19, 20]) :
    ∃ w : NegationWord, y = w.symbol ∧ NegationWord.ofSymbol? y = some w := by
  simp only [List.mem_cons, List.not_mem_nil, or_false] at h
  rcases h with rfl | rfl
  exacts [⟨.ni, rfl, rfl⟩, ⟨.negans, rfl, rfl⟩]

theorem exists_compareOp {y : Int} (h : y ∈ [26, 27, 28, 29, 30, 31]) :
    ∃ op : CompareOp, y = op.symbol ∧ CompareOp.ofSymbol? y = some op := by
  simp only [List.mem_cons, List.not_mem_nil, or_false] at h
  rcases h with rfl | rfl | rfl | rfl | rfl | rfl
  exacts [⟨.idem, rfl, rfl⟩, ⟨.niIdem, rfl, rfl⟩, ⟨.infra, rfl, rfl⟩, ⟨.infraIdem, rfl, rfl⟩,
    ⟨.supra, rfl, rfl⟩, ⟨.supraIdem, rfl, rfl⟩]

theorem exists_mapM {α : Type} {f : ParseTree → Option α} {g : α → ParseTree}
    (h : ∀ c ∈ cs, ∃ a, f c = some a ∧ g a = c.bare) :
    ∃ as, cs.mapM f = some as ∧ as.map g = cs.map bare := by
  induction cs with
  | nil => exact ⟨[], rfl, rfl⟩
  | cons c cs ih =>
    obtain ⟨hc, hcs⟩ := List.forall_mem_cons.1 h
    obtain ⟨a, ha, hn⟩ := hc
    obtain ⟨as, has, hns⟩ := ih hcs
    exact ⟨a :: as, by simp [ha, has], by simp [hn, hns]⟩

/-- The words among the parts of a phrase are those of a source, and every phrase among them is read. -/
def Legible (cs : List ParseTree) : Prop := ∀ c ∈ cs, c.Worded ∧ ∀ n, c.rule? = some n → Readable c

namespace Legible

variable {is : List Item} (hl : Legible cs)
include hl

theorem token {y : Int} (h : Consists (.token y :: is) cs o) : ∃ x s rest, cs = leaf x false :: rest ∧
    x.type = y ∧ x.text = some s ∧ Lexicon.Fits x.type s ∧ (leaf x false).bare = word y s ∧
    Legible rest ∧ Consists is rest o := by
  cases h with
  | token hx h =>
    obtain ⟨hc, hrest⟩ := List.forall_mem_cons.1 hl
    obtain ⟨s, hs, hfits⟩ := hc.1.leaf
    exact ⟨_, s, _, rfl, hx, hs, hfits, bare_word hx hs, hrest, h⟩

theorem literal (n : Nat) (h : Consists (.token n :: is) cs o) (hn : 0 < n ∧ n < 33) :
    ∃ x rest, cs = leaf x false :: rest ∧ (leaf x false).bare = literal n ∧ Legible rest ∧ Consists is rest o := by
  obtain ⟨x, s, rest, rfl, hx, -, hfits, hbare, hrest, h⟩ := hl.token h
  exact ⟨x, rest, rfl, by rw [hbare, hfits.literal n hx hn.1 hn.2, ParseTree.literal], hrest, h⟩

theorem phrase {r : Nat} (h : Consists (.phrase r :: is) cs o) :
    ∃ i ds rest, cs = node i ds :: rest ∧ (node i ds).rule? = some (r : Int) ∧ Readable (node i ds) ∧
      Legible rest ∧ Consists is rest o := by
  cases h with
  | phrase hc h =>
    obtain ⟨hread, hrest⟩ := List.forall_mem_cons.1 hl
    obtain ⟨i, ds, rfl⟩ := exists_node hc
    exact ⟨i, ds, _, rfl, hc, hread.2 r hc, hrest, h⟩

theorem expr (h : Consists (.phrase 9 :: is) cs o) :
    ∃ i ds e rest, cs = node i ds :: rest ∧ Expr.ofTree? (node i ds) = some e ∧ e.tree = (node i ds).bare ∧
      Legible rest ∧ Consists is rest o := by
  obtain ⟨i, ds, rest, rfl, hc, hread, hrest, h⟩ := hl.phrase h
  obtain ⟨e, he, hn⟩ := hread.expr hc
  exact ⟨i, ds, e, rest, rfl, he, hn, hrest, h⟩

theorem braced (h : Consists (.token 5 :: .phrase 7 :: .token 6 :: is) cs o) :
    ∃ x i ss y rest block, cs = leaf x false :: node i ss :: leaf y false :: rest ∧ i.kind = .block ∧
      Statement.ofTrees? ss = some block ∧ cs.map bare =
        ParseTree.literal 5 :: ParseTree.phrase .block (Statement.trees block) :: ParseTree.literal 6 :: rest.map bare ∧
      Legible rest ∧ Consists is rest o := by
  obtain ⟨x, _, rfl, hx, hl, h⟩ := hl.literal 5 h (by decide)
  obtain ⟨i, ds, _, rfl, hc, hread, hl, h⟩ := hl.phrase h
  obtain ⟨y, rest, rfl, hy, hl, h⟩ := hl.literal 6 h (by decide)
  obtain ⟨_, _, block, heq, hi, hss, hn⟩ := hread.block hc
  cases heq
  exact ⟨x, i, ds, y, rest, block, rfl, hi, hss, by simp [hx, hn, hy], hl, h⟩

end Legible

section Nodes

variable (hl : Legible cs)
include hl

theorem binary_parts {xs : List Int} (h : Consists [.phrase 9, .operator xs, .phrase 9] cs o) :
    ∃ il ls x ir rs el er, cs = [node il ls, leaf x false, node ir rs] ∧ x.type ∈ xs ∧
      Expr.ofTree? (node il ls) = some el ∧ Expr.ofTree? (node ir rs) = some er ∧
      ∀ n : Nat, x.type = n → 0 < n → n < 33 → cs.map bare = [el.tree, literal n, er.tree] := by
  obtain ⟨il, ls, el, _, rfl, hel, hnl, hl, h⟩ := hl.expr h
  cases h with
  | operator hx hr =>
    obtain ⟨hleaf, hl⟩ := List.forall_mem_cons.1 hl
    obtain ⟨ir, rs, er, _, rfl, her, hnr, -, hr⟩ := Legible.expr hl hr
    cases hr
    refine ⟨il, ls, _, ir, rs, el, er, rfl, hx, hel, her, fun n hn hpos hlt => ?_⟩
    simp [hnl, hnr, bare_literal hleaf.1 hn hpos hlt]

theorem readable_expr {is : List Item} (hrule : i.kind.rule = 9)
    (hkind : Grammar.production i.kind = some is) (hparts : Consists is cs o) :
    Readable (node i cs) := by
  have hrule' := hrule
  cases hk : i.kind <;> rw [hk] at hrule' hkind <;> cases hrule' <;> cases hkind
  case parens =>
    obtain ⟨x, _, rfl, hx, hl, h⟩ := hl.literal 17 hparts (by decide)
    obtain ⟨j, ds, e, _, rfl, he, hn, hl, h⟩ := hl.expr h
    obtain ⟨y, _, rfl, hy, -, h⟩ := hl.literal 18 h (by decide)
    cases h
    exact readable_of_expr hrule (e := .parens e) (by simp [Expr.ofTree?, hk, he])
      (by simp [Expr.tree, hk, hn, hx, hy])
  case negation =>
    cases hparts with
    | operator hx h =>
      obtain ⟨hleaf, hl⟩ := List.forall_mem_cons.1 hl
      obtain ⟨j, ds, e, _, rfl, he, hn, -, h⟩ := Legible.expr hl h
      cases h
      obtain ⟨w, hsymbol, hword⟩ := exists_negationWord hx
      have hleaf := bare_literal hleaf.1 hsymbol (by cases w <;> decide) (by cases w <;> decide)
      exact readable_of_expr hrule (e := .negation w e) (by simp [Expr.ofTree?, hk, he, hword])
        (by simp [Expr.tree, hk, hn, hleaf])
  case mulDiv =>
    obtain ⟨il, ls, x, ir, rs, el, er, rfl, hx, hl, hr, hn⟩ := binary_parts hl hparts
    obtain ⟨op, hsymbol, hop⟩ := exists_mulOp hx
    exact readable_of_expr hrule (e := .mulDiv op el er) (by simp [Expr.ofTree?, hk, hl, hr, hop])
      (by rw [hk, hn _ hsymbol (by cases op <;> decide) (by cases op <;> decide), Expr.tree])
  case addSub =>
    obtain ⟨il, ls, x, ir, rs, el, er, rfl, hx, hl, hr, hn⟩ := binary_parts hl hparts
    obtain ⟨op, hsymbol, hop⟩ := exists_addOp hx
    exact readable_of_expr hrule (e := .addSub op el er) (by simp [Expr.ofTree?, hk, hl, hr, hop])
      (by rw [hk, hn _ hsymbol (by cases op <;> decide) (by cases op <;> decide), Expr.tree])
  case compare =>
    obtain ⟨il, ls, x, ir, rs, el, er, rfl, hx, hl, hr, hn⟩ := binary_parts hl hparts
    obtain ⟨op, hsymbol, hop⟩ := exists_compareOp hx
    exact readable_of_expr hrule (e := .compare op el er) (by simp [Expr.ofTree?, hk, hl, hr, hop])
      (by rw [hk, hn _ hsymbol (by cases op <;> decide) (by cases op <;> decide), Expr.tree])
  case concatenation =>
    obtain ⟨il, ls, el, _, rfl, hel, hnl, hl, h⟩ := hl.expr hparts
    obtain ⟨x, _, rfl, hx, hl, h⟩ := hl.literal 25 h (by decide)
    obtain ⟨ir, rs, er, _, rfl, her, hnr, -, h⟩ := hl.expr h
    cases h
    exact readable_of_expr hrule (e := .concatenation el er) (by simp [Expr.ofTree?, hk, hel, her])
      (by simp [Expr.tree, hk, hnl, hnr, hx])
  case funcCallExpr =>
    obtain ⟨j, ds, _, rfl, hc, hread, -, h⟩ := hl.phrase hparts
    cases h
    obtain ⟨_, _, arguments, name, heq, hj, hargs, hn⟩ := hread.call hc
    cases heq
    exact readable_of_expr hrule (e := .call name arguments) (by simp [Expr.ofTree?, hk, hj, hargs])
      (by simp [Expr.tree, hk, ← hn, Invocation.tree])
  case name =>
    obtain ⟨x, s, _, rfl, -, hs, -, hbare, -, h⟩ := hl.token hparts
    cases h
    exact readable_of_expr hrule (e := .name s) (by simp [Expr.ofTree?, hk, hs]) (by simp [Expr.tree, hk, hbare])
  case string =>
    obtain ⟨x, s, _, rfl, hx, hs, hfits, hbare, -, h⟩ := hl.token hparts
    cases h
    obtain ⟨content, htext, rfl⟩ := hfits.string hx
    exact readable_of_expr hrule (e := .string content)
      (by simp [Expr.ofTree?, hk, hs, Lexicon.stripChar_text htext]) (by simp [Expr.tree, hk, hbare])
  case bool =>
    obtain ⟨x, s, _, rfl, hx, hs, hfits, hbare, -, h⟩ := hl.token hparts
    cases h
    have htruth : (if (s == "VERUM") = true then "VERUM" else "FALSUM") = s := by
      rcases hfits.truth hx with rfl | rfl <;> decide
    exact readable_of_expr hrule (e := .bool (s == "VERUM")) (by simp [Expr.ofTree?, hk, hs])
      (by rw [Expr.tree, htruth, hk, List.map_singleton, hbare])
  case number =>
    obtain ⟨x, s, _, rfl, hx, hs, hfits, hbare, -, h⟩ := hl.token hparts
    cases h
    obtain ⟨n, hne, rfl⟩ := hfits.number hx
    exact readable_of_expr hrule (e := .number n)
      (by simp [Expr.ofTree?, hk, hs, Numeral.ofText?_text hne]) (by simp [Expr.tree, hk, hbare])

theorem exists_called (h : Consists [.token 32, .token 37] cs o) (n : Nat) :
    ∃ name, argumentsOf? cs = some ([], name) ∧
      Expr.listed n [] ++ [literal 32, word 37 name] = cs.map bare := by
  obtain ⟨x, _, rfl, hx, hl, h⟩ := hl.literal 32 h (by decide)
  obtain ⟨y, name, _, rfl, -, hname, -, hbare, -, h⟩ := hl.token h
  cases h
  exact ⟨name, by simp [argumentsOf?, hname], by simp [Expr.listed, hx, hbare]⟩

theorem exists_arguments {n : Nat} (hlen : cs.length = n)
    (h : Consists [.many [.token 2, .phrase 9], .token 32, .token 37] cs o) :
    ∃ arguments name, argumentsOf? cs = some (arguments, name) ∧
      Expr.listed 2 arguments ++ [literal 32, word 37 name] = cs.map bare := by
  induction n using Nat.strongRecOn generalizing cs o with
  | _ n ih =>
    cases h with
    | done h => exact ⟨[], exists_called hl h 2⟩
    | round h =>
      obtain ⟨x, _, rfl, hx, hl, h⟩ := hl.literal 2 h (by decide)
      obtain ⟨j, ds, e, rest, rfl, he, hn, hl, h⟩ := hl.expr h
      obtain ⟨es, name, hes, hns⟩ := ih rest.length (by simp at hlen; omega) hl rfl h
      exact ⟨e :: es, name, by simp [argumentsOf?, he, hes], by simp [Expr.listed, hn, hns, hx]⟩

theorem readable_funcCall (hk : i.kind = .funcCall) (h : Consists
    [.optional [.token 1, .phrase 9, .many [.token 2, .phrase 9]], .token 32, .token 37] cs o) :
    Readable (node i cs) := by
  obtain ⟨arguments, name, hargs, hn⟩ : ∃ arguments name, argumentsOf? cs = some (arguments, name) ∧
      Expr.listed 1 arguments ++ [literal 32, word 37 name] = cs.map bare := by
    cases h with
    | skip h => exact ⟨[], exists_called hl h 1⟩
    | take h =>
      obtain ⟨x, _, rfl, hx, hl, h⟩ := hl.literal 1 h (by decide)
      obtain ⟨j, ds, e, rest, rfl, he, hn, hl, h⟩ := hl.expr h
      obtain ⟨es, name, hes, hns⟩ := exists_arguments hl rfl h
      exact ⟨e :: es, name, by simp [argumentsOf?, he, hes], by simp [Expr.listed, hn, hns, hx]⟩
  refine ⟨.funcCall ⟨name, arguments⟩, by simp [Phrase.ofTree?, kind?, Invocation.ofTree?, hk, hargs], ?_⟩
  rw [bare_node, hk, ← hn, Phrase.tree, Invocation.tree]

theorem exists_statements (h : ∀ c ∈ cs, c.rule? = some 8) :
    ∃ ss, Statement.ofTrees? cs = some ss ∧ Statement.trees ss = cs.map bare := by
  induction cs with
  | nil => exact ⟨[], by simp [Statement.ofTrees?], by simp [Statement.trees]⟩
  | cons c cs ih =>
    obtain ⟨hc, hcs⟩ := List.forall_mem_cons.1 h
    obtain ⟨hread, hl⟩ := List.forall_mem_cons.1 hl
    obtain ⟨s, hs, hn⟩ := (hread.2 8 hc).statement hc
    obtain ⟨ss, hss, hns⟩ := ih hl hcs
    exact ⟨s :: ss, by simp [Statement.ofTrees?, hs, hss], by simp [Statement.trees, hn, hns]⟩

theorem readable_block (hk : i.kind = .block) (h : Consists [.many [.phrase 8]] cs o) : Readable (node i cs) := by
  obtain ⟨ps, rest, rfl, hps, hrest⟩ := h.phrases
  cases hrest
  rw [List.append_nil] at hl ⊢
  obtain ⟨ss, hss, hn⟩ := exists_statements hl hps
  refine ⟨.block ss, by simp [Phrase.ofTree?, kind?, blockOf?, hk, hss], ?_⟩
  rw [bare_node, hk, ← hn, Phrase.tree]

theorem marked_parts {n : Nat} (h : Consists [.phrase 9, .token n] cs o) (hn : 0 < n ∧ n < 33) :
    ∃ j ds x e, cs = [node j ds, leaf x false] ∧ Expr.ofTree? (node j ds) = some e ∧
      cs.map bare = [e.tree, literal n] := by
  obtain ⟨j, ds, e, _, rfl, he, hne, hl, h⟩ := hl.expr h
  obtain ⟨x, _, rfl, hx, -, h⟩ := hl.literal n h hn
  cases h
  exact ⟨j, ds, x, e, rfl, he, by simp [hne, hx]⟩

theorem guarded_parts {n : Nat} {is : List Item} (hn : 0 < n ∧ n < 33)
    (h : Consists (.phrase 9 :: .token n :: .token 5 :: .phrase 7 :: .token 6 :: is) cs o) :
    ∃ c x₁ x₂ j ss x₃ rest e block, j.kind = .block ∧
      cs = c :: leaf x₁ false :: leaf x₂ false :: node j ss :: leaf x₃ false :: rest ∧
      Expr.ofTree? c = some e ∧ Statement.ofTrees? ss = some block ∧ Legible rest ∧ Consists is rest o ∧
      cs.map bare = e.tree :: literal n :: literal 5 :: phrase .block (Statement.trees block) ::
        literal 6 :: rest.map bare := by
  obtain ⟨j, ds, e, _, rfl, he, hne, hl, h⟩ := hl.expr h
  obtain ⟨x, _, rfl, hx, hl, h⟩ := hl.literal n h hn
  obtain ⟨y, k, ss, z, rest, block, rfl, hk, hss, hbraced, hl, h⟩ := hl.braced h
  exact ⟨node j ds, x, y, k, ss, z, rest, e, block, hk, rfl, he, hss, hl, h, by
    rw [List.map_cons, List.map_cons, hbraced, ← hne, hx]⟩

omit hl in
theorem ofTree?_guarded {c : ParseTree} {x₁ x₂ x₃ : Token} {j : NodeInfo} {ss : List ParseTree} {e : Expr}
    {block : List Statement} (hj : j.kind = .block) (he : Expr.ofTree? c = some e)
    (hss : Statement.ofTrees? ss = some block) :
    (i.kind = .loop → Statement.ofTree? (node i [c, .leaf x₁ false, .leaf x₂ false, node j ss,
      .leaf x₃ false]) = some (.loop e block)) ∧
    (i.kind = .branch → Statement.ofTree? (node i [c, .leaf x₁ false, .leaf x₂ false, node j ss,
      .leaf x₃ false]) = some (.branch e block none)) := by
  constructor <;> intro hk <;> rw [Statement.ofTree?, if_neg (not_not.2 hj), he, hss, hk] <;> rfl

theorem readable_statement {is : List Item} (hrule : i.kind.rule = 8)
    (hkind : Grammar.production i.kind = some is) (hparts : Consists is cs o) :
    Readable (node i cs) := by
  have hrule' := hrule
  cases hk : i.kind <;> rw [hk] at hrule' hkind <;> cases hrule' <;> cases hkind
  case assignment =>
    obtain ⟨x, name, _, rfl, -, hname, -, hbare, hl, h⟩ := hl.token hparts
    obtain ⟨j, ds, y, e, rfl, he, hn⟩ := marked_parts (n := 9) hl h (by decide)
    refine readable_of_statement hrule (s := .assignment name e)
      (by simp [Statement.ofTree?, hk, hname, he]) ?_
    rw [List.map_cons, hn, hbare, hk, Statement.tree]
  case loop =>
    obtain ⟨c, x₁, x₂, j, ss, x₃, rest, e, block, hj, rfl, he, hss, -, h, hn⟩ :=
      guarded_parts (n := 10) hl (by decide) hparts
    cases h
    exact readable_of_statement hrule (s := .loop e block)
      ((ofTree?_guarded hj he hss).1 hk) (by rw [hn, hk, Statement.tree, List.map_nil])
  case branch =>
    obtain ⟨c, x₁, x₂, j, ss, x₃, rest, e, block, hj, rfl, he, hss, hl, h, hn⟩ :=
      guarded_parts (n := 11) hl (by decide) hparts
    cases h with
    | skip h =>
      cases h
      exact readable_of_statement hrule (s := .branch e block none)
        ((ofTree?_guarded hj he hss).2 hk) (by rw [hn, hk, Statement.tree, List.map_nil])
    | take h =>
      obtain ⟨y, _, rfl, hy, hl, h⟩ := hl.literal 12 h (by decide)
      obtain ⟨y₁, k, ts, y₂, _, other, rfl, hk', hts, hn', -, h⟩ := hl.braced h
      cases h
      exact readable_of_statement hrule (s := .branch e block (some other))
        (by rw [Statement.ofTree?, if_pos ⟨hk, hj, hk'⟩, he, hss, hts]; rfl)
        (by rw [hn, List.map_cons, hy, hn', hk, Statement.tree, List.map_nil])
  case printNumber =>
    obtain ⟨j, ds, x, e, rfl, he, hn⟩ := marked_parts (n := 13) hl hparts (by decide)
    exact readable_of_statement hrule (s := .printNumber e) (by simp [Statement.ofTree?, hk, he])
      (by rw [hn, hk, Statement.tree])
  case printString =>
    obtain ⟨j, ds, x, e, rfl, he, hn⟩ := marked_parts (n := 14) hl hparts (by decide)
    exact readable_of_statement hrule (s := .printString e) (by simp [Statement.ofTree?, hk, he])
      (by rw [hn, hk, Statement.tree])
  case printBool =>
    obtain ⟨j, ds, x, e, rfl, he, hn⟩ := marked_parts (n := 15) hl hparts (by decide)
    exact readable_of_statement hrule (s := .printBool e) (by simp [Statement.ofTree?, hk, he])
      (by rw [hn, hk, Statement.tree])
  case giveBack =>
    cases hparts with
    | skip h =>
      obtain ⟨x, _, rfl, hx, -, h⟩ := hl.literal 16 h (by decide)
      cases h
      exact readable_of_statement hrule (s := .giveBack none) (by simp [Statement.ofTree?, hk])
        (by simp [Statement.tree, hk, hx])
    | take h =>
      obtain ⟨j, ds, x, e, rfl, he, hn⟩ := marked_parts (n := 16) hl h (by decide)
      exact readable_of_statement hrule (s := .giveBack (some e)) (by simp [Statement.ofTree?, hk, he])
        (by rw [hn, hk, Statement.tree])
  case funcCallStmt =>
    obtain ⟨j, ds, _, rfl, hc, hread, -, h⟩ := hl.phrase hparts
    cases h
    obtain ⟨_, _, arguments, name, heq, hj, hargs, hn⟩ := hread.call hc
    cases heq
    exact readable_of_statement hrule (s := .call ⟨name, arguments⟩)
      (by simp [Statement.ofTree?, Invocation.ofTree?, hk, hj, hargs]) (by simp [Statement.tree, hk, hn])

theorem readable_varBlock (hk : i.kind = .varBlock) (h : Consists [.many [.phrase 4]] cs o) :
    Readable (node i cs) := by
  obtain ⟨ps, rest, rfl, hps, hrest⟩ := h.phrases
  cases hrest
  rw [List.append_nil] at hl ⊢
  obtain ⟨ds, hds, hn⟩ := exists_mapM (f := NameDef.ofDeclaration?) (g := NameDef.declarationTree)
    fun c (hc : c ∈ ps) => ((hl c hc).2 4 (hps c hc)).varDec (hps c hc)
  refine ⟨.varBlock ds, by simp [Phrase.ofTree?, kind?, variablesOf?, hk, hds], ?_⟩
  rw [bare_node, hk, ← hn, Phrase.tree]

theorem readable_nameDef (hk : i.kind = .nameDef) (h : Consists [.token 37, .token 8, .token 36] cs o) :
    Readable (node i cs) := by
  obtain ⟨x, name, _, rfl, -, hname, -, hx, hl, h⟩ := hl.token h
  obtain ⟨y, _, rfl, hy, hl, h⟩ := hl.literal 8 h (by decide)
  obtain ⟨z, s, _, rfl, hz, hs, hfits, hbare, -, h⟩ := hl.token h
  cases h
  obtain ⟨type, rfl⟩ := hfits.type hz
  refine ⟨.nameDef ⟨name, type⟩, ?_, ?_⟩
  · simp [Phrase.ofTree?, kind?, NameDef.ofTree?, hk, hname, hs, ValueType.ofWord_word, Except.toOption]
  · simp [Phrase.tree, NameDef.tree, bare_node, hk, hy, hx, hbare]

theorem readable_varDec (hk : i.kind = .varDec) (h : Consists [.phrase 5, .token 7] cs o) :
    Readable (node i cs) := by
  obtain ⟨j, ds, _, rfl, hc, hread, hl, h⟩ := hl.phrase h
  obtain ⟨x, _, rfl, hx, -, h⟩ := hl.literal 7 h (by decide)
  cases h
  obtain ⟨d, hd, hn⟩ := hread.nameDef hc
  refine ⟨.varDec d, by simp [Phrase.ofTree?, kind?, NameDef.ofDeclaration?, hk, hd], ?_⟩
  simp [Phrase.tree, NameDef.declarationTree, bare_node i, hk, hn, hx]

theorem readable_body (hk : i.kind = .body) (h : Consists [.phrase 6, .phrase 7] cs o) :
    Readable (node i cs) := by
  obtain ⟨v, vs, _, rfl, hv, hread, hl, h⟩ := hl.phrase h
  obtain ⟨ds, hds, hn⟩ := hread.declared hv
  obtain ⟨b, bs, _, rfl, hb, hread, -, h⟩ := hl.phrase h
  cases h
  obtain ⟨_, _, ss, heq, hj, hss, hns⟩ := hread.block hb
  cases heq
  refine ⟨.body ⟨ds, ss⟩, ?_, ?_⟩
  · simp [Phrase.ofTree?, kind?, ProgramBody.ofTree?, blockOf?, hk, hj, hds, hss]
  · simp [Phrase.tree, ProgramBody.tree, bare_node i, hk, hn, hns]

theorem readable_main (hk : i.kind = .main) (h : Consists [.phrase 3] cs o) : Readable (node i cs) := by
  obtain ⟨j, ds, _, rfl, hc, hread, -, h⟩ := hl.phrase h
  cases h
  obtain ⟨b, hb, hn⟩ := hread.body hc
  refine ⟨.main b, by simp [Phrase.ofTree?, kind?, ProgramBody.ofMain?, hk, hb], ?_⟩
  simp [Phrase.tree, bare_node i, hk, hn]

theorem named_parts {is : List Item} (h : Consists (.token 3 :: .token 37 :: is) cs o) (n : Nat) :
    ∃ x y name rest, parametersOf? cs = some ([], leaf x false :: leaf y false :: rest) ∧
      y.text = some name ∧ Consists is rest o ∧ Legible rest ∧
      cs.map bare = NameDef.listed n [] ++ (literal 3 :: word 37 name :: rest.map bare) := by
  obtain ⟨x, _, rfl, hx, hl, h⟩ := hl.literal 3 h (by decide)
  obtain ⟨y, name, rest, rfl, -, hname, -, hbare, hl, h⟩ := hl.token h
  exact ⟨x, y, name, rest, rfl, hname, h, hl, by simp [NameDef.listed, hx, hbare]⟩

theorem exists_parameters {n : Nat} {is : List Item} (hlen : cs.length = n)
    (h : Consists (.many [.token 2, .phrase 5] :: .token 3 :: .token 37 :: is) cs o) :
    ∃ ds x y name rest, parametersOf? cs = some (ds, leaf x false :: leaf y false :: rest) ∧
      y.text = some name ∧ Consists is rest o ∧ Legible rest ∧
      cs.map bare = NameDef.listed 2 ds ++ (literal 3 :: word 37 name :: rest.map bare) := by
  induction n using Nat.strongRecOn generalizing cs with
  | _ n ih =>
    cases h with
    | done h => exact ⟨[], named_parts hl h 2⟩
    | round h =>
      obtain ⟨z, _, rfl, hz, hl, h⟩ := hl.literal 2 h (by decide)
      obtain ⟨j, es, tail, rfl, hc, hread, hl, h⟩ := hl.phrase h
      obtain ⟨d, hd, hn⟩ := hread.nameDef hc
      obtain ⟨ds, x, y, name, rest, hds, hname, hrest, hl, hns⟩ :=
        ih tail.length (by simp at hlen; omega) hl rfl h
      exact ⟨d :: ds, x, y, name, rest, by simp [parametersOf?, hd, hds], hname, hrest, hl,
        by simp [NameDef.listed, hn, hns, hz]⟩

theorem braced_body (h : Consists [.token 5, .phrase 3, .token 6] cs o) :
    ∃ x j ds y body, cs = [leaf x false, node j ds, leaf y false] ∧
      ProgramBody.ofTree? (node j ds) = some body ∧
      cs.map bare = [literal 5, body.tree, literal 6] := by
  obtain ⟨x, _, rfl, hx, hl, h⟩ := hl.literal 5 h (by decide)
  obtain ⟨j, ds, _, rfl, hc, hread, hl, h⟩ := hl.phrase h
  obtain ⟨y, _, rfl, hy, -, h⟩ := hl.literal 6 h (by decide)
  cases h
  obtain ⟨body, hbody, hn⟩ := hread.body hc
  exact ⟨x, j, ds, y, body, rfl, hbody, by simp [hn, hx, hy]⟩

omit hl in
theorem readable_of_parameters {ts rest : List ParseTree} {ds : List NameDef} {x y : Token} {name : String}
    (hk : i.kind = .funcDef) (hds : parametersOf? ts = some (ds, leaf x false :: leaf y false :: rest))
    (hname : y.text = some name)
    (hrest : Consists [.optional [.token 4, .token 36], .token 5, .phrase 3, .token 6] rest o)
    (hl : Legible rest)
    (hn : ts.map bare = NameDef.listed 1 ds ++ (literal 3 :: word 37 name :: rest.map bare)) :
    Readable (node i ts) := by
  cases hrest with
  | skip h =>
    obtain ⟨z, j, cs, z', body, rfl, hbody, hns⟩ := braced_body hl h
    refine ⟨.funcDef ⟨name, ds, none, body⟩, ?_, ?_⟩
    · simp [Phrase.ofTree?, kind?, FuncDef.ofTree?, hk, hds, hname, hbody]
    · rw [bare_node, hk, hn, hns]
      rfl
  | take h =>
    obtain ⟨g, _, rfl, hgives, hl, h⟩ := hl.literal 4 h (by decide)
    obtain ⟨r, s, _, rfl, hr, hs, hfits, hbare, hl, h⟩ := hl.token h
    obtain ⟨z, j, cs, z', body, rfl, hbody, hns⟩ := braced_body hl h
    obtain ⟨type, rfl⟩ := hfits.type hr
    refine ⟨.funcDef ⟨name, ds, some type, body⟩, ?_, ?_⟩
    · simp [Phrase.ofTree?, kind?, FuncDef.ofTree?, hk, hds, hname, hbody, hs,
        ValueType.ofWord_word, Except.toOption]
    · rw [bare_node, hk, hn, List.map_cons, List.map_cons, hgives, hbare, hns]
      rfl

theorem readable_funcDef (hk : i.kind = .funcDef) (h : Consists
    [.optional [.token 1, .phrase 5, .many [.token 2, .phrase 5]], .token 3, .token 37,
      .optional [.token 4, .token 36], .token 5, .phrase 3, .token 6] cs o) : Readable (node i cs) := by
  cases h with
  | skip h =>
    obtain ⟨x, y, name, rest, hds, hname, hrest, hl, hn⟩ := named_parts hl h 1
    exact readable_of_parameters hk hds hname hrest hl hn
  | take h =>
    obtain ⟨z, _, rfl, hz, hl, h⟩ := hl.literal 1 h (by decide)
    obtain ⟨j, es, tail, rfl, hc, hread, hl, h⟩ := hl.phrase h
    obtain ⟨d, hd, hn⟩ := hread.nameDef hc
    obtain ⟨ds, x, y, name, rest, hds, hname, hrest, hl, hns⟩ := exists_parameters hl rfl h
    have hall : parametersOf? (leaf z false :: node j es :: tail) =
        some (d :: ds, leaf x false :: leaf y false :: rest) := by
      simp [parametersOf?, hd, hds]
    exact readable_of_parameters hk hall hname hrest hl (by simp [NameDef.listed, hn, hns, hz])

theorem readable_script (hk : i.kind = .script)
    (h : Consists [.many [.phrase 1], .phrase 2, .token (-1)] cs o) : Readable (node i cs) := by
  obtain ⟨ps, rest, rfl, hps, h⟩ := h.phrases
  obtain ⟨fs, hfs, hns⟩ := exists_mapM (f := FuncDef.ofTree?) (g := FuncDef.tree)
    fun c (hc : c ∈ ps) => ((hl c (by simp [hc])).2 1 (hps c hc)).funcDef (hps c hc)
  obtain ⟨m, ms, _, rfl, hm, hread, hl, h⟩ := Legible.phrase (fun c hc => hl c (by simp [hc])) h
  obtain ⟨x, s, _, rfl, hx, -, hfits, hbare, -, h⟩ := hl.token h
  cases h
  obtain ⟨b, hb, hn⟩ := hread.main hm
  obtain rfl := hfits.eof hx
  refine ⟨.script ⟨fs, b⟩, by simp [Phrase.ofTree?, kind?, Script.ofTree?, hk, hb, hfs], ?_⟩
  simp [Phrase.tree, Script.tree, bare_node i, hk, hn, hns, hbare, Symbol.eof]

end Nodes

theorem readable_of_derived (h : Derived t) (hw : t.Worded) {n : Int} (hr : t.rule? = some n) :
    Readable t := by
  induction h generalizing n with
  | leaf => cases hr
  | @node i is cs hkind hparts _ _ ih =>
    have hl : Legible cs := fun c hc => ⟨hw.part c hc, fun n hr => ih c hc (hw.part c hc) hr⟩
    have hitems : ∀ {k js}, i.kind = k → Grammar.production k = some js → Consists js cs i.operator := by
      rintro k js rfl hjs
      cases hkind.symm.trans hjs
      exact hparts
    cases hk : i.kind
    case script => exact readable_script hl hk (hitems hk rfl)
    case funcDef => exact readable_funcDef hl hk (hitems hk rfl)
    case main => exact readable_main hl hk (hitems hk rfl)
    case body => exact readable_body hl hk (hitems hk rfl)
    case varDec => exact readable_varDec hl hk (hitems hk rfl)
    case nameDef => exact readable_nameDef hl hk (hitems hk rfl)
    case varBlock => exact readable_varBlock hl hk (hitems hk rfl)
    case block => exact readable_block hl hk (hitems hk rfl)
    case funcCall => exact readable_funcCall hl hk (hitems hk rfl)
    case bare => rw [hk] at hkind; cases hkind
    case numbered => rw [hk] at hkind; cases hkind
    all_goals first
      | exact readable_statement hl (by rw [hk]; rfl) hkind hparts
      | exact readable_expr hl (by rw [hk]; rfl) hkind hparts

theorem exists_phrase (h : Derived t) (hw : t.Worded) {n : Int} (hr : t.rule? = some n) :
    ∃ p, Phrase.ofTree? t = some p ∧ p.tree = t.bare ∧ (∀ e ∈ p.exprs, e.Sound) ∧
      p.numerals = t.numerals := by
  obtain ⟨p, hp, htree⟩ := readable_of_derived h hw hr
  have hsound : ∀ e ∈ p.exprs, e.Sound := by
    intro e he
    have hworded : p.tree.Worded := htree ▸ hw.bare
    exact e.sound_of_worded (hworded.of_holds (Phrase.holds_of_mem he))
  exact ⟨p, hp, htree, hsound, by rw [← numerals_bare, ← htree, Phrase.numerals_tree hsound]⟩

end ParseTree

end Throbac
