import Throbac.Proofs.Grammar.Derivation
import Throbac.Proofs.Lexing.Words
import Throbac.Proofs.Program.Numerals
import Throbac.Proofs.Program.Reading

/-!
# The tree of a program

What the tree of a program looks like, if it is asked neither where its words stand nor where its
phrases were called from.
-/
namespace Throbac

theorem Token.text_thin (x : Int) (s : Option String) : (Token.thin x s).text = s := by cases s <;> rfl

namespace ParseTree

def word (type : Int) (text : String) : ParseTree := leaf (Token.thin type (some text)) false

def literal (n : Nat) : ParseTree := word n (Lexicon.literal n)

def phrase (kind : NodeKind) (cs : List ParseTree) : ParseTree := node { kind } cs

mutual

def bare : ParseTree → ParseTree
  | leaf t e => leaf (Token.thin t.type t.text) e
  | node i cs => phrase i.kind (bareAll cs)

def bareAll : List ParseTree → List ParseTree
  | [] => []
  | c :: cs => c.bare :: bareAll cs

end

theorem bareAll_eq (cs : List ParseTree) : bareAll cs = cs.map bare := by
  induction cs with
  | nil => rfl
  | cons c cs ih => rw [bareAll, ih, List.map_cons]

theorem bare_node (i : NodeInfo) (cs : List ParseTree) :
    (node i cs).bare = phrase i.kind (cs.map bare) := by
  rw [bare, bareAll_eq]

end ParseTree

open ParseTree (word literal phrase)

def NegationWord.symbol : NegationWord → Nat
  | ni => 19
  | negans => 20

def MulOp.symbol : MulOp → Nat
  | congero => 21
  | partio => 22

def AddOp.symbol : AddOp → Nat
  | addo => 23
  | subtraho => 24

def CompareOp.symbol : CompareOp → Nat
  | idem => 26
  | niIdem => 27
  | infra => 28
  | infraIdem => 29
  | supra => 30
  | supraIdem => 31

mutual

def Expr.tree : Expr → ParseTree
  | .number n => phrase .number [word 33 n.text]
  | .string s => phrase .string [word 34 ("^" ++ s ++ "^")]
  | .bool b => phrase .bool [word 35 (if b then "VERUM" else "FALSUM")]
  | .name x => phrase .name [word 37 x]
  | .parens e => phrase .parens [literal 17, e.tree, literal 18]
  | .negation w e => phrase .negation [literal w.symbol, e.tree]
  | .mulDiv op l r => phrase .mulDiv [l.tree, literal op.symbol, r.tree]
  | .addSub op l r => phrase .addSub [l.tree, literal op.symbol, r.tree]
  | .concatenation l r => phrase .concatenation [l.tree, literal 25, r.tree]
  | .compare op l r => phrase .compare [l.tree, literal op.symbol, r.tree]
  | .call f es =>
    phrase .funcCallExpr [phrase .funcCall (Expr.listed 1 es ++ [literal 32, word 37 f])]

/-- Arguments, each behind a mark: the first behind the given one, the others behind a comma. -/
def Expr.listed (mark : Nat) : List Expr → List ParseTree
  | [] => []
  | e :: es => literal mark :: e.tree :: Expr.listed 2 es

end

def Invocation.tree (i : Invocation) : ParseTree :=
  phrase .funcCall (Expr.listed 1 i.arguments ++ [literal 32, word 37 i.function])

mutual

def Statement.tree : Statement → ParseTree
  | .assignment x e => phrase .assignment [word 37 x, e.tree, literal 9]
  | .loop e ss => phrase .loop [e.tree, literal 10, literal 5, phrase .block (Statement.trees ss), literal 6]
  | .branch e ss none =>
    phrase .branch [e.tree, literal 11, literal 5, phrase .block (Statement.trees ss), literal 6]
  | .branch e ss (some ts) =>
    phrase .branch [e.tree, literal 11, literal 5, phrase .block (Statement.trees ss), literal 6,
      literal 12, literal 5, phrase .block (Statement.trees ts), literal 6]
  | .printNumber e => phrase .printNumber [e.tree, literal 13]
  | .printString e => phrase .printString [e.tree, literal 14]
  | .printBool e => phrase .printBool [e.tree, literal 15]
  | .giveBack none => phrase .giveBack [literal 16]
  | .giveBack (some e) => phrase .giveBack [e.tree, literal 16]
  | .call i => phrase .funcCallStmt [i.tree]

def Statement.trees : List Statement → List ParseTree
  | [] => []
  | s :: ss => s.tree :: Statement.trees ss

end

namespace NameDef

def tree (d : NameDef) : ParseTree := phrase .nameDef [word 37 d.name, literal 8, word 36 d.type.word]

def declarationTree (d : NameDef) : ParseTree := phrase .varDec [d.tree, literal 7]

/-- Parameters, each behind a mark: the first behind the given one, the others behind a comma. -/
def listed (mark : Nat) : List NameDef → List ParseTree
  | [] => []
  | d :: ds => literal mark :: d.tree :: listed 2 ds

end NameDef

def ProgramBody.tree (b : ProgramBody) : ParseTree :=
  phrase .body [phrase .varBlock (b.declared.map NameDef.declarationTree),
    phrase .block (Statement.trees b.block)]

def FuncDef.tree (f : FuncDef) : ParseTree :=
  phrase .funcDef (NameDef.listed 1 f.parameters ++ (literal 3 :: word 37 f.name ::
    ((f.result.map fun t => [literal 4, word 36 t.word]).getD [] ++ [literal 5, f.body.tree, literal 6])))

def Script.tree (s : Script) : ParseTree :=
  phrase .script (s.functions.map FuncDef.tree ++ [phrase .main [s.main.tree], word Symbol.eof "<EOF>"])

def Phrase.tree : Phrase → ParseTree
  | .script s => s.tree
  | .funcDef f => f.tree
  | .main b => phrase .main [b.tree]
  | .body b => b.tree
  | .varDec d => d.declarationTree
  | .nameDef d => d.tree
  | .varBlock ds => phrase .varBlock (ds.map NameDef.declarationTree)
  | .block ss => phrase .block (Statement.trees ss)
  | .statement s => s.tree
  | .expr e => e.tree
  | .funcCall i => i.tree

/-! The expressions of a program. -/

def Invocation.expr (i : Invocation) : Expr := .call i.function i.arguments

mutual

/-- The expressions of a statement; a variable that is set is one of them. -/
def Statement.exprs : Statement → List Expr
  | .assignment x e => [.name x, e]
  | .printNumber e | .printString e | .printBool e | .giveBack (some e) => [e]
  | .loop e ss | .branch e ss none => e :: Statement.exprsAll ss
  | .branch e ss (some ts) => e :: (Statement.exprsAll ss ++ Statement.exprsAll ts)
  | .giveBack none => []
  | .call i => [i.expr]

def Statement.exprsAll : List Statement → List Expr
  | [] => []
  | s :: ss => s.exprs ++ Statement.exprsAll ss

end

def NameDef.expr (d : NameDef) : Expr := .name d.name

def ProgramBody.exprs (b : ProgramBody) : List Expr :=
  b.declared.map NameDef.expr ++ Statement.exprsAll b.block

def FuncDef.exprs (f : FuncDef) : List Expr :=
  .name f.name :: (f.parameters.map NameDef.expr ++ f.body.exprs)

/-- The expressions of a program, all names among them. -/
def Phrase.exprs : Phrase → List Expr
  | .script s => s.functions.flatMap FuncDef.exprs ++ s.main.exprs
  | .funcDef f => f.exprs
  | .main b | .body b => b.exprs
  | .varDec d | .nameDef d => [d.expr]
  | .varBlock ds => ds.map NameDef.expr
  | .block ss => Statement.exprsAll ss
  | .statement s => s.exprs
  | .expr e => [e]
  | .funcCall i => [i.expr]

namespace ParseTree

theorem descendants_phrase (k : NodeKind) (cs : List ParseTree) :
    (phrase k cs).descendants = phrase k cs :: cs.flatMap descendants := by
  rw [phrase, descendants, descendantsAll_eq]

/-- The tree holds an expression, up to the nodes that make a name or a call an expression. -/
def Holds (t : ParseTree) (e : Expr) : Prop :=
  ∀ s ∈ e.tree.descendants, s ∈ t.descendants ∨ ∃ cs, s = phrase .name cs ∨ s = phrase .funcCallExpr cs

theorem holds_self (e : Expr) : e.tree.Holds e := fun _ h => .inl h

theorem Holds.part {k : NodeKind} {cs : List ParseTree} {c : ParseTree} {e : Expr} (hc : c ∈ cs)
    (h : c.Holds e) : (phrase k cs).Holds e := by
  intro s hs
  refine (h s hs).imp (fun hs => ?_) id
  rw [descendants_phrase]
  exact List.mem_cons_of_mem _ (List.mem_flatMap_of_mem hc hs)

theorem Holds.of_exists {k : NodeKind} {cs : List ParseTree} {e : Expr} (h : ∃ c ∈ cs, c.Holds e) :
    (phrase k cs).Holds e := by
  obtain ⟨c, hc, hholds⟩ := h
  exact hholds.part hc

theorem holds_name {k : NodeKind} {cs : List ParseTree} {x : String} (h : word 37 x ∈ cs) :
    (phrase k cs).Holds (.name x) := by
  intro s hs
  rw [Expr.tree, descendants_phrase, List.flatMap_singleton, List.mem_cons] at hs
  rcases hs with rfl | hs
  · exact .inr ⟨_, .inl rfl⟩
  · rw [descendants_phrase]
    exact .inl (List.mem_cons_of_mem _ (List.mem_flatMap_of_mem h hs))

theorem holds_call (i : Invocation) : i.tree.Holds i.expr := by
  intro s hs
  rw [Invocation.expr, Expr.tree, descendants_phrase, List.flatMap_singleton, List.mem_cons] at hs
  rcases hs with rfl | hs
  · exact .inr ⟨_, .inr rfl⟩
  · exact .inl hs

end ParseTree

open ParseTree (Holds holds_self holds_name holds_call)

mutual

theorem Statement.holds_of_mem {e : Expr} : (s : Statement) → e ∈ s.exprs → s.tree.Holds e
  | .assignment x e', h => by
    rw [exprs, List.mem_cons, List.mem_singleton] at h
    rw [tree]
    rcases h with rfl | rfl
    · exact holds_name (by simp)
    · exact (holds_self e).part (by simp)
  | .loop e' ss, h | .branch e' ss none, h => by
    rw [exprs, List.mem_cons] at h
    rw [tree]
    rcases h with rfl | h
    · exact (holds_self e).part (by simp)
    · exact (Holds.of_exists (k := .block) (Statement.exists_holds ss h)).part (by simp)
  | .branch e' ss (some ts), h => by
    rw [exprs, List.mem_cons, List.mem_append] at h
    rw [tree]
    rcases h with rfl | h | h
    · exact (holds_self e).part (by simp)
    · exact (Holds.of_exists (k := .block) (Statement.exists_holds ss h)).part (by simp)
    · exact (Holds.of_exists (k := .block) (Statement.exists_holds ts h)).part (by simp)
  | .printNumber e', h | .printString e', h | .printBool e', h | .giveBack (some e'), h => by
    rw [exprs, List.mem_singleton] at h
    rw [tree, h]
    exact (holds_self e').part (by simp)
  | .giveBack none, h => by
    rw [exprs] at h
    cases h
  | .call i, h => by
    rw [exprs, List.mem_singleton] at h
    rw [tree, h]
    exact (holds_call i).part (by simp)

theorem Statement.exists_holds {e : Expr} : (ss : List Statement) → e ∈ Statement.exprsAll ss →
    ∃ c ∈ Statement.trees ss, c.Holds e
  | [], h => by
    rw [exprsAll] at h
    cases h
  | s :: ss, h => by
    rw [exprsAll, List.mem_append] at h
    rw [trees]
    rcases h with h | h
    · exact ⟨s.tree, List.mem_cons_self, s.holds_of_mem h⟩
    · obtain ⟨c, hc, hholds⟩ := Statement.exists_holds ss h
      exact ⟨c, List.mem_cons_of_mem _ hc, hholds⟩

end

theorem NameDef.tree_holds (d : NameDef) : d.tree.Holds d.expr := holds_name (by simp)

theorem NameDef.declarationTree_holds (d : NameDef) : d.declarationTree.Holds d.expr :=
  d.tree_holds.part (by simp)

theorem NameDef.exists_holds {ds : List NameDef} {e : Expr} (h : e ∈ ds.map NameDef.expr) :
    ∃ c ∈ ds.map NameDef.declarationTree, c.Holds e := by
  obtain ⟨d, hd, rfl⟩ := List.mem_map.1 h
  exact ⟨d.declarationTree, List.mem_map_of_mem hd, d.declarationTree_holds⟩

theorem NameDef.listed_holds {ds : List NameDef} {e : Expr} (n : Nat) (h : e ∈ ds.map NameDef.expr) :
    ∃ c ∈ NameDef.listed n ds, c.Holds e := by
  induction ds generalizing n with
  | nil => cases h
  | cons d ds ih =>
    rw [listed]
    rw [List.map_cons, List.mem_cons] at h
    rcases h with rfl | h
    · exact ⟨d.tree, by simp, d.tree_holds⟩
    · obtain ⟨c, hc, hholds⟩ := ih 2 h
      exact ⟨c, by simp [hc], hholds⟩

theorem ProgramBody.holds_of_mem {b : ProgramBody} {e : Expr} (h : e ∈ b.exprs) : b.tree.Holds e := by
  rw [exprs, List.mem_append] at h
  rcases h with h | h
  · exact (Holds.of_exists (k := .varBlock) (NameDef.exists_holds h)).part (by simp)
  · exact (Holds.of_exists (k := .block) (Statement.exists_holds b.block h)).part (by simp)

theorem FuncDef.holds_of_mem {f : FuncDef} {e : Expr} (h : e ∈ f.exprs) : f.tree.Holds e := by
  rw [exprs, List.mem_cons, List.mem_append] at h
  rcases h with rfl | h | h
  · exact holds_name (by simp)
  · obtain ⟨c, hc, hholds⟩ := NameDef.listed_holds 1 h
    exact hholds.part (List.mem_append_left _ hc)
  · exact (ProgramBody.holds_of_mem h).part (by simp)

theorem Phrase.holds_of_mem {p : Phrase} {e : Expr} (h : e ∈ p.exprs) : p.tree.Holds e := by
  cases p with
  | script s =>
    rw [exprs, List.mem_append, List.mem_flatMap] at h
    rcases h with ⟨f, hf, h⟩ | h
    · exact (FuncDef.holds_of_mem h).part (List.mem_append_left _ (List.mem_map_of_mem hf))
    · exact ((ProgramBody.holds_of_mem h).part (k := .main) (List.mem_singleton_self _)).part (by simp)
  | funcDef f => exact FuncDef.holds_of_mem h
  | main b => exact (ProgramBody.holds_of_mem h).part (List.mem_singleton_self _)
  | body b => exact ProgramBody.holds_of_mem h
  | varDec d =>
    rw [List.mem_singleton.1 h]
    exact d.declarationTree_holds
  | nameDef d =>
    rw [List.mem_singleton.1 h]
    exact d.tree_holds
  | varBlock ds => exact Holds.of_exists (NameDef.exists_holds h)
  | block ss => exact Holds.of_exists (Statement.exists_holds ss h)
  | statement s => exact s.holds_of_mem h
  | expr e =>
    rw [List.mem_singleton.1 h]
    exact holds_self _
  | funcCall i =>
    rw [List.mem_singleton.1 h]
    exact holds_call i

namespace ParseTree

variable {i : NodeInfo} {cs : List ParseTree} {t : ParseTree} {x : Token}

theorem descendants_bare (t : ParseTree) : t.bare.descendants = t.descendants.map bare := by
  induction h : sizeOf t using Nat.strongRecOn generalizing t with
  | _ n ih =>
    cases t with
    | leaf x e => rfl
    | node i cs =>
      rw [bare_node, descendants_phrase, descendants, descendantsAll_eq, List.map_cons, bare_node,
        List.flatMap_map, List.map_flatMap]
      refine congrArg _ (List.flatMap_congr fun c hc => ih (sizeOf c) ?_ c rfl)
      have hlt := List.sizeOf_lt_of_mem hc
      simp only [node.sizeOf_spec] at h
      omega

theorem leaves_bare (t : ParseTree) :
    t.bare.leaves = t.leaves.map fun x => Token.thin x.type x.text := by
  rw [leaves, descendants_bare, leaves, List.filterMap_map, List.map_filterMap]
  refine List.filterMap_congr fun s _ => ?_
  cases s <;> rfl

def Worded (t : ParseTree) : Prop := ∀ x ∈ t.leaves, x.Worded

theorem Worded.part (h : Worded (node i cs)) : ∀ c ∈ cs, c.Worded := by
  intro c hc x hx
  refine h x ?_
  rw [leaves_node]
  exact List.mem_flatMap_of_mem hc hx

theorem Worded.leaf {e : Bool} (h : Worded (.leaf x e)) : x.Worded :=
  h x (by rw [leaves_leaf]; exact List.mem_singleton_self x)

theorem Worded.bare (h : t.Worded) : t.bare.Worded := by
  intro x hx
  rw [leaves_bare] at hx
  obtain ⟨y, hy, rfl⟩ := List.mem_map.1 hx
  obtain ⟨s, hs, hfits⟩ := h y hy
  exact ⟨s, by rw [Token.text_thin, hs], hfits⟩

theorem Holds.leaves {e : Expr} (h : t.Holds e) : e.tree.leaves ⊆ t.leaves := by
  intro x hx
  obtain ⟨s, hs, hsx⟩ := List.mem_filterMap.1 hx
  rcases h s hs with hs | ⟨cs, rfl | rfl⟩
  · exact List.mem_filterMap.2 ⟨s, hs, hsx⟩
  · cases hsx
  · cases hsx

theorem Worded.of_holds {e : Expr} (h : t.Worded) (he : t.Holds e) : e.tree.Worded :=
  fun x hx => h x (he.leaves hx)

theorem worded_phrase {k : NodeKind} : (phrase k cs).Worded ↔ ∀ c ∈ cs, c.Worded := by
  constructor
  · exact fun h => h.part
  · intro h x hx
    rw [phrase, leaves_node] at hx
    obtain ⟨c, hc, hx⟩ := List.mem_flatMap.1 hx
    exact h c hc x hx

theorem worded_word {y : Int} {s : String} : (word y s).Worded ↔ Lexicon.Fits y s := by
  constructor
  · intro h
    obtain ⟨s', hs', hfits⟩ := h.leaf
    cases hs'
    exact hfits
  · intro h x hx
    rw [word, leaves_leaf, List.mem_singleton] at hx
    exact hx ▸ ⟨s, rfl, h⟩

theorem worded_literal {n : Nat} (hpos : 0 < n) (hlt : n < 33) : (literal n).Worded := by
  refine worded_word.2 ⟨fun m hm _ _ => ?_, fun h => ?_, fun h => ?_, fun h => ?_, fun h => ?_,
    fun h => ?_, fun h => ?_⟩
  · rw [Int.ofNat.inj hm]
  · omega
  · omega
  · omega
  · omega
  · omega
  · cases h

/-- How tightly a phrase holds together, as for expressions. -/
def tightness : ParseTree → Nat
  | leaf .. => 5
  | node i _ =>
    match i.kind with
    | .compare => 1
    | .concatenation => 2
    | .addSub => 3
    | .mulDiv => 4
    | _ => 5

/-- A phrase whose operands, the first and the last part, hold together well enough to stand where they
are, if every binary operator groups to the left. -/
def Grouped (t : ParseTree) : Prop :=
  (t.tightness < 5 → (∀ l ∈ t.children.head?, t.tightness ≤ l.tightness) ∧
    ∀ r ∈ t.children.getLast?, t.tightness < r.tightness) ∧
  (t.kind? = some .negation → ∀ e ∈ t.children.getLast?, 5 ≤ e.tightness)

/-- Operators stand in the order in which they bind. -/
def Canonical (t : ParseTree) : Prop := ∀ s ∈ t.descendants, s.Grouped

instance : DecidablePred Grouped := fun _ => instDecidableAnd

instance : DecidablePred Canonical := fun t => inferInstanceAs (Decidable (∀ s ∈ t.descendants, s.Grouped))

theorem tightness_bare (t : ParseTree) : t.bare.tightness = t.tightness := by
  cases t with
  | leaf => rfl
  | node i cs => rw [bare_node]; rfl

theorem kind?_bare (t : ParseTree) : t.bare.kind? = t.kind? := by
  cases t with
  | leaf => rfl
  | node i cs => rw [bare_node]; rfl

theorem children_bare (t : ParseTree) : t.bare.children = t.children.map bare := by
  cases t with
  | leaf => rfl
  | node i cs => rw [bare_node]; rfl

theorem grouped_bare : t.bare.Grouped ↔ t.Grouped := by
  unfold Grouped
  simp only [tightness_bare, kind?_bare, children_bare, List.head?_map, List.getLast?_map, Option.mem_def,
    Option.map_eq_some_iff, forall_exists_index, and_imp, forall_apply_eq_imp_iff₂]

theorem canonical_bare : t.bare.Canonical ↔ t.Canonical := by
  unfold Canonical
  rw [descendants_bare]
  simp only [List.mem_map, forall_exists_index, and_imp, forall_apply_eq_imp_iff₂, grouped_bare]

theorem Canonical.of_holds {e : Expr} (h : t.Canonical) (he : t.Holds e) : e.tree.Canonical := by
  intro s hs
  rcases he s hs with hs | ⟨cs, rfl | rfl⟩
  · exact h s hs
  · exact ⟨fun ht => absurd ht (Nat.lt_irrefl 5), fun hk => by cases hk⟩
  · exact ⟨fun ht => absurd ht (Nat.lt_irrefl 5), fun hk => by cases hk⟩

theorem canonical_phrase {k : NodeKind} :
    (phrase k cs).Canonical ↔ (phrase k cs).Grouped ∧ ∀ c ∈ cs, c.Canonical := by
  unfold Canonical
  rw [descendants_phrase]
  simp only [List.mem_cons, List.mem_flatMap, forall_eq_or_imp, forall_exists_index, and_imp]
  exact and_congr_right fun _ => ⟨fun h c hc s hs => h s c hc hs, fun h s c hc hs => h c hc s hs⟩

end ParseTree

namespace Expr

/-- Numerals have digits, and names and texts are spelled as the lexer reads them. -/
abbrev Sound : Expr → Prop := Every (fun n => n.digits ≠ []) IsText IsName

abbrev SoundAll : List Expr → Prop := EveryAll (fun n => n.digits ≠ []) IsText IsName

open ParseTree (worded_phrase worded_word)

mutual

theorem sound_of_worded : (e : Expr) → e.tree.Worded → e.Sound
  | .number n, h => by
    obtain ⟨⟨ds⟩, hne, heq⟩ := (worded_word.1 (worded_phrase.1 h _ (List.mem_singleton_self _))).number rfl
    obtain ⟨d, ds, rfl⟩ := List.exists_cons_of_ne_nil hne
    intro hn
    rw [Numeral.text_mk, Numeral.text, hn, ← String.toList_inj] at heq
    simp at heq
  | .string s, h => by
    obtain ⟨c, hc, heq⟩ := (worded_word.1 (worded_phrase.1 h _ (List.mem_singleton_self _))).string rfl
    rw [← String.toList_inj] at heq
    obtain rfl : s = c := by simpa [String.toList_inj] using heq
    exact hc
  | .bool _, _ => trivial
  | .name x, h => (worded_word.1 (worded_phrase.1 h _ (List.mem_singleton_self _))).name rfl
  | .parens e, h | .negation _ e, h => e.sound_of_worded (worded_phrase.1 h _ (by simp))
  | .mulDiv _ l r, h | .addSub _ l r, h | .concatenation l r, h | .compare _ l r, h =>
    ⟨l.sound_of_worded (worded_phrase.1 h _ (by simp)), r.sound_of_worded (worded_phrase.1 h _ (by simp))⟩
  | .call f es, h => by
    have hparts := worded_phrase.1 (worded_phrase.1 h _ (List.mem_singleton_self _))
    exact ⟨(worded_word.1 (hparts (ParseTree.word 37 f) (by simp))).name rfl,
      soundAll_of_worded 1 es fun c hc => hparts c (List.mem_append_left _ hc)⟩

theorem soundAll_of_worded (n : Nat) : (es : List Expr) → (∀ c ∈ listed n es, c.Worded) → SoundAll es
  | [], _ => trivial
  | e :: es, h => by
    rw [listed] at h
    exact ⟨e.sound_of_worded (h e.tree (by simp)),
      soundAll_of_worded 2 es fun c hc => h c (by simp [hc])⟩

end

theorem tightness_tree (e : Expr) : e.tree.tightness = e.tightness := by cases e <;> rfl

open ParseTree (canonical_phrase)

mutual

theorem canonical_of_tree : (e : Expr) → e.tree.Canonical → e.Canonical
  | .number _, _ | .string _, _ | .bool _, _ | .name _, _ => trivial
  | .parens e, h => ⟨trivial, e.canonical_of_tree ((canonical_phrase.1 h).2 _ (by simp))⟩
  | .negation w e, h => by
    obtain ⟨hgrouped, hparts⟩ := canonical_phrase.1 h
    have he := hgrouped.2 rfl e.tree rfl
    rw [tightness_tree] at he
    exact ⟨he, e.canonical_of_tree (hparts _ (by simp))⟩
  | .mulDiv _ l r, h | .addSub _ l r, h | .concatenation l r, h | .compare _ l r, h => by
    obtain ⟨hgrouped, hparts⟩ := canonical_phrase.1 h
    obtain ⟨hl, hr⟩ := hgrouped.1 (by simp [phrase, ParseTree.tightness])
    have hl := hl l.tree rfl
    have hr := hr r.tree rfl
    rw [tightness_tree] at hl hr
    exact ⟨⟨hl, hr⟩, l.canonical_of_tree (hparts _ (by simp)), r.canonical_of_tree (hparts _ (by simp))⟩
  | .call f es, h => by
    have hparts := (canonical_phrase.1 ((canonical_phrase.1 h).2 _ (List.mem_singleton_self _))).2
    exact ⟨trivial, canonicalAll_of_trees 1 es fun c hc => hparts c (List.mem_append_left _ hc)⟩

theorem canonicalAll_of_trees (n : Nat) :
    (es : List Expr) → (∀ c ∈ listed n es, c.Canonical) → CanonicalAll es
  | [], _ => trivial
  | e :: es, h => by
    rw [listed] at h
    exact ⟨e.canonical_of_tree (h e.tree (by simp)),
      canonicalAll_of_trees 2 es fun c hc => h c (by simp [hc])⟩

end

end Expr

/-! The numerals of a program are those among the words of its tree. -/

def Token.numeral? (t : Token) : Option Numeral :=
  if t.type = 33 then t.text.bind Numeral.ofText? else none

namespace ParseTree

def numerals (t : ParseTree) : List Numeral := t.leaves.filterMap Token.numeral?

theorem numerals_bare (t : ParseTree) : t.bare.numerals = t.numerals := by
  rw [numerals, leaves_bare, List.filterMap_map, numerals]
  refine List.filterMap_congr fun x _ => ?_
  rw [Function.comp_apply, Token.numeral?, Token.text_thin]
  rfl

theorem numerals_node (i : NodeInfo) (cs : List ParseTree) :
    (node i cs).numerals = cs.flatMap numerals := by
  rw [numerals, leaves_node, List.filterMap_flatMap]
  rfl

@[simp]
theorem numerals_phrase (k : NodeKind) (cs : List ParseTree) :
    (phrase k cs).numerals = cs.flatMap numerals := numerals_node _ cs

@[simp] theorem numerals_word {y : Int} (s : String) (hy : y ≠ 33) : (word y s).numerals = [] := by
  simp [numerals, word, leaves_leaf, Token.numeral?, Token.thin, hy]

@[simp] theorem numerals_literal {n : Nat} (h : n < 33) : (literal n).numerals = [] :=
  numerals_word _ (by omega)

end ParseTree

open ParseTree (numerals_word numerals_literal)

mutual

theorem Expr.numerals_tree : (e : Expr) → e.Sound → e.tree.numerals = e.numerals
  | .number n, h => by
    simp [Expr.tree, Expr.numerals, ParseTree.numerals, word, phrase, ParseTree.leaves_node,
      ParseTree.leaves_leaf, Token.numeral?, Token.thin, Token.text, Numeral.ofText?_text h]
  | .string _, _ | .bool _, _ | .name _, _ => by simp [Expr.tree, Expr.numerals]
  | .parens e, h => by simp [Expr.tree, Expr.numerals, e.numerals_tree h]
  | .negation w e, h => by
    have hw : w.symbol < 33 := by cases w <;> decide
    simp [Expr.tree, Expr.numerals, numerals_literal hw, e.numerals_tree h]
  | .mulDiv op l r, h | .addSub op l r, h | .compare op l r, h => by
    have hop : op.symbol < 33 := by cases op <;> decide
    simp [Expr.tree, Expr.numerals, numerals_literal hop, l.numerals_tree h.1, r.numerals_tree h.2]
  | .concatenation l r, h => by
    simp [Expr.tree, Expr.numerals, l.numerals_tree h.1, r.numerals_tree h.2]
  | .call f es, h => by
    simp [Expr.tree, Expr.numerals, Expr.numerals_listed (n := 1) (by decide) es h.2]

theorem Expr.numerals_listed {n : Nat} (hn : n < 33) : (es : List Expr) → Expr.SoundAll es →
    (Expr.listed n es).flatMap ParseTree.numerals = Expr.numeralsAll es
  | [], _ => by simp [Expr.listed, Expr.numeralsAll]
  | e :: es, h => by
    simp [Expr.listed, Expr.numeralsAll, numerals_literal hn, e.numerals_tree h.1,
      Expr.numerals_listed (n := 2) (by decide) es h.2]

end

theorem Invocation.numerals_tree {i : Invocation} (h : i.expr.Sound) :
    i.tree.numerals = Expr.numeralsAll i.arguments := by
  simp [Invocation.tree, Expr.numerals_listed (n := 1) (by decide) i.arguments h.2]

mutual

theorem Statement.numerals_tree : (s : Statement) → (∀ e ∈ s.exprs, e.Sound) →
    s.tree.numerals = s.numerals
  | .assignment x e, h => by
    rw [exprs] at h
    simp [Statement.tree, Statement.numerals, e.numerals_tree (h e (by simp))]
  | .loop e ss, h | .branch e ss none, h => by
    rw [exprs] at h
    simp [Statement.tree, Statement.numerals, numerals_literal, e.numerals_tree (h e (by simp)),
      Statement.numerals_trees ss fun d hd => h d (by simp [hd])]
  | .branch e ss (some ts), h => by
    rw [exprs] at h
    simp [Statement.tree, Statement.numerals, numerals_literal, e.numerals_tree (h e (by simp)),
      Statement.numerals_trees ss fun d hd => h d (by simp [hd]),
      Statement.numerals_trees ts fun d hd => h d (by simp [hd])]
  | .printNumber e, h | .printString e, h | .printBool e, h | .giveBack (some e), h => by
    rw [exprs] at h
    simp [Statement.tree, Statement.numerals, e.numerals_tree (h e (by simp))]
  | .giveBack none, h => by simp [Statement.tree, Statement.numerals]
  | .call i, h => by
    rw [exprs] at h
    simp [Statement.tree, Statement.numerals, Invocation.numerals_tree (h i.expr (by simp))]

theorem Statement.numerals_trees : (ss : List Statement) → (∀ e ∈ Statement.exprsAll ss, e.Sound) →
    (Statement.trees ss).flatMap ParseTree.numerals = Statement.numeralsAll ss
  | [], _ => by simp [Statement.trees, Statement.numeralsAll]
  | s :: ss, h => by
    rw [exprsAll] at h
    simp [Statement.trees, Statement.numeralsAll, s.numerals_tree fun d hd => h d (by simp [hd]),
      Statement.numerals_trees ss fun d hd => h d (by simp [hd])]

end

theorem NameDef.numerals_tree (d : NameDef) : d.tree.numerals = [] := by
  simp [NameDef.tree]

theorem NameDef.numerals_listed {n : Nat} (hn : n < 33) (ds : List NameDef) :
    (NameDef.listed n ds).flatMap ParseTree.numerals = [] := by
  induction ds generalizing n with
  | nil => rfl
  | cons d ds ih =>
    simp only [listed, List.flatMap_cons, numerals_literal hn, d.numerals_tree, ih (n := 2) (by decide),
      List.nil_append]

theorem ProgramBody.numerals_tree {b : ProgramBody} (h : ∀ e ∈ b.exprs, e.Sound) :
    b.tree.numerals = Statement.numeralsAll b.block := by
  have hblock := Statement.numerals_trees b.block fun e he => h e (List.mem_append_right _ he)
  simp [ProgramBody.tree, hblock, NameDef.declarationTree, NameDef.numerals_tree, List.flatMap_map]

theorem FuncDef.numerals_tree {f : FuncDef} (h : ∀ e ∈ f.exprs, e.Sound) :
    f.tree.numerals = Statement.numeralsAll f.body.block := by
  have hbody := ProgramBody.numerals_tree (b := f.body) fun e he => h e (by simp [exprs, he])
  cases hr : f.result <;> simp [FuncDef.tree, hr, hbody, NameDef.numerals_listed]

theorem ParseTree.Holds.numerals {t : ParseTree} {e : Expr} (h : t.Holds e) (he : e.Sound) :
    e.numerals ⊆ t.numerals := by
  rw [← e.numerals_tree he]
  exact List.filterMap_subset _ h.leaves

theorem Phrase.numerals_tree {p : Phrase} (h : ∀ e ∈ p.exprs, e.Sound) :
    p.tree.numerals = p.numerals := by
  cases p with
  | script s =>
    have hmain := ProgramBody.numerals_tree (b := s.main) fun e he => h e (List.mem_append_right _ he)
    have hfuns : s.functions.flatMap (fun f => f.tree.numerals) =
        s.functions.flatMap fun f => Statement.numeralsAll f.body.block := by
      refine List.flatMap_congr fun f hf => FuncDef.numerals_tree fun e he => h e ?_
      exact List.mem_append_left _ (List.mem_flatMap_of_mem hf he)
    simp [Phrase.tree, Script.tree, Phrase.numerals, Script.numerals, hmain, List.flatMap_map, hfuns, Symbol.eof]
  | funcDef f => exact FuncDef.numerals_tree h
  | main b => simp [Phrase.tree, Phrase.numerals, ProgramBody.numerals_tree h]
  | body b => exact ProgramBody.numerals_tree h
  | varDec d => simp [Phrase.tree, Phrase.numerals, NameDef.declarationTree, NameDef.numerals_tree]
  | nameDef d => exact d.numerals_tree
  | varBlock ds =>
    simp [Phrase.tree, Phrase.numerals, NameDef.declarationTree, NameDef.numerals_tree, List.flatMap_map]
  | block ss => simpa [Phrase.tree, Phrase.numerals] using Statement.numerals_trees ss h
  | statement s => exact s.numerals_tree h
  | expr e => exact e.numerals_tree (h e (List.mem_singleton_self e))
  | funcCall i => exact Invocation.numerals_tree (h i.expr (List.mem_singleton_self _))

end Throbac
