import Throbac.Grammar.Rules
import Throbac.Proofs.Stream.Tape

/-!
# Derivation trees

The grammar of the language as data: what a phrase of each kind consists of. A tree is derived if
every phrase in it has just the parts that its kind asks for, in order, and its operator is the one
among them. Nothing here speaks of a parser; the rules of the parser are compared with the grammar
at the end.
-/
namespace Throbac

/-- A part of a production. -/
inductive Item
  | token (type : Int)
  /-- One of several tokens, the operator of the phrase. -/
  | operator (types : List Int)
  | phrase (rule : Nat)
  | optional (items : List Item)
  | many (items : List Item)
  deriving Repr, Inhabited

namespace Grammar

/-- The parts of a phrase of a kind. Statements and expressions of no special kind have none. -/
def production : NodeKind → Option (List Item)
  | .script => some [.many [.phrase 1], .phrase 2, .token (-1)]
  | .funcDef => some [
      .optional [.token 1, .phrase 5, .many [.token 2, .phrase 5]], .token 3, .token 37,
      .optional [.token 4, .token 36], .token 5, .phrase 3, .token 6]
  | .main => some [.phrase 3]
  | .body => some [.phrase 6, .phrase 7]
  | .varDec => some [.phrase 5, .token 7]
  | .nameDef => some [.token 37, .token 8, .token 36]
  | .varBlock => some [.many [.phrase 4]]
  | .block => some [.many [.phrase 8]]
  | .assignment => some [.token 37, .phrase 9, .token 9]
  | .loop => some [.phrase 9, .token 10, .token 5, .phrase 7, .token 6]
  | .branch => some [.phrase 9, .token 11, .token 5, .phrase 7, .token 6,
      .optional [.token 12, .token 5, .phrase 7, .token 6]]
  | .printNumber => some [.phrase 9, .token 13]
  | .printString => some [.phrase 9, .token 14]
  | .printBool => some [.phrase 9, .token 15]
  | .giveBack => some [.optional [.phrase 9], .token 16]
  | .funcCallStmt => some [.phrase 10]
  | .parens => some [.token 17, .phrase 9, .token 18]
  | .negation => some [.operator [19, 20], .phrase 9]
  | .mulDiv => some [.phrase 9, .operator [21, 22], .phrase 9]
  | .addSub => some [.phrase 9, .operator [23, 24], .phrase 9]
  | .concatenation => some [.phrase 9, .token 25, .phrase 9]
  | .compare => some [.phrase 9, .operator [26, 27, 28, 29, 30, 31], .phrase 9]
  | .funcCallExpr => some [.phrase 10]
  | .name => some [.token 37]
  | .string => some [.token 34]
  | .number => some [.token 33]
  | .bool => some [.token 35]
  | .funcCall => some [.optional [.token 1, .phrase 9, .many [.token 2, .phrase 9]], .token 32,
      .token 37]
  | .statement | .expr | .bare | .numbered _ => none

end Grammar

/-- The number of the rule that a phrase was read by. -/
def ParseTree.rule? : ParseTree → Option Int
  | .leaf .. => none
  | .node i _ => some i.kind.rule

/-- Trees that make up the items in order, with the operator among them. -/
inductive Consists : List Item → List ParseTree → Option Token → Prop
  | nil : Consists [] [] none
  | token {x is cs o} {t : Token} (hx : t.type = x) (h : Consists is cs o) :
    Consists (.token x :: is) (.leaf t false :: cs) o
  | operator {xs is cs o} {t : Token} (hx : t.type ∈ xs) (h : Consists is cs o) :
    Consists (.operator xs :: is) (.leaf t false :: cs) (o.or (some t))
  | phrase {r : Nat} {is cs o c} (hc : c.rule? = some (r : Int)) (h : Consists is cs o) :
    Consists (.phrase r :: is) (c :: cs) o
  | skip {js is cs o} (h : Consists is cs o) : Consists (.optional js :: is) cs o
  | take {js is cs o} (h : Consists (js ++ is) cs o) : Consists (.optional js :: is) cs o
  | done {js is cs o} (h : Consists is cs o) : Consists (.many js :: is) cs o
  | round {js is cs o} (h : Consists (js ++ .many js :: is) cs o) : Consists (.many js :: is) cs o

theorem Consists.append {is js : List Item} {cs ds : List ParseTree} {o o' : Option Token}
    (h : Consists is cs o) (h' : Consists js ds o') : Consists (is ++ js) (cs ++ ds) (o'.or o) := by
  induction h with
  | nil => simpa using h'
  | token hx _ ih => exact .token hx ih
  | operator hx _ ih =>
    rw [← Option.or_assoc]
    exact .operator hx ih
  | phrase hc _ ih => exact .phrase hc ih
  | skip _ ih => exact .skip ih
  | take _ ih => exact .take (by rwa [List.append_assoc] at ih)
  | done _ ih => exact .done ih
  | round _ ih => exact .round (by rwa [List.append_assoc] at ih)

/-- A tree of which every phrase has the parts that its kind asks for. -/
inductive Derived : ParseTree → Prop
  | leaf (t : Token) : Derived (.leaf t false)
  | node {i : NodeInfo} {is : List Item} {cs : List ParseTree}
    (hkind : Grammar.production i.kind = some is)
    (hparts : Consists is cs i.operator) (hfailure : i.failure = none) (hall : ∀ c ∈ cs, Derived c) :
    Derived (.node i cs)

namespace ParseTree

theorem descendantsAll_eq (cs : List ParseTree) : descendantsAll cs = cs.flatMap descendants := by
  induction cs with
  | nil => rfl
  | cons c cs ih => rw [descendantsAll, ih, List.flatMap_cons]

theorem leaves_leaf (t : Token) (e : Bool) : (leaf t e).leaves = [t] := rfl

theorem leaves_node (i : NodeInfo) (cs : List ParseTree) :
    (node i cs).leaves = cs.flatMap leaves := by
  rw [leaves, descendants, descendantsAll_eq, List.filterMap_cons_none rfl, List.filterMap_flatMap]
  rfl

end ParseTree

theorem Derived.no_errors {t : ParseTree} (h : Derived t) : ∀ s ∈ t.descendants, match s with
    | .leaf _ e => e = false
    | .node i _ => i.failure = none := by
  induction h with
  | leaf t => simp [ParseTree.descendants]
  | node _ _ hfailure _ ih =>
    intro s hs
    rw [ParseTree.descendants, ParseTree.descendantsAll_eq, List.mem_cons, List.mem_flatMap] at hs
    rcases hs with rfl | ⟨c, hc, hs⟩
    · exact hfailure
    · exact ih c hc s hs

/-! The rules of the parser spell the productions. -/

namespace Part

mutual

def item : Part → Item
  | .token _ x => .token x
  | .operator _ xs => .operator xs
  | .phrase _ rule _ => .phrase rule
  | .optional _ _ ps => .optional (items ps)
  | .many _ _ _ ps | .manyPredicted _ _ _ ps => .many (items ps)

def items : List Part → List Item
  | [] => []
  | p :: ps => p.item :: items ps

end

end Part

namespace Alternative

/-- The alternative of rule `n` reads phrases of its kind, behind what stands before it. -/
def Spells (n : Nat) (before : List Item) (a : Alternative) : Prop :=
  a.kind.rule = n ∧ Grammar.production a.kind = some (before ++ Part.items a.parts)

end Alternative

/-- The rule with number `n` reads the phrases of the grammar. -/
def Rule.Spells (n : Nat) (r : Rule) : Prop :=
  r.kind.rule = n ∧ match r.body with
  | .sequence ps => Grammar.production r.kind = some (Part.items ps)
  | .choice _ _ as => ∀ a ∈ as, a.Spells n []
  | .recursion b => (∀ a ∈ b.operands, a.Spells n []) ∧ ∀ s ∈ b.suffixes, s.Spells n [.phrase n]

namespace Grammar

theorem spells_statements : ∀ a ∈ statements, a.Spells 8 [] := by
  simp only [statements, List.forall_mem_cons]
  exact ⟨⟨rfl, rfl⟩, ⟨rfl, rfl⟩, ⟨rfl, rfl⟩, ⟨rfl, rfl⟩, ⟨rfl, rfl⟩, ⟨rfl, rfl⟩, ⟨rfl, rfl⟩,
    ⟨rfl, rfl⟩, by simp⟩

theorem spells_operands : ∀ a ∈ operands, a.Spells 9 [] := by
  simp only [operands, List.forall_mem_cons]
  exact ⟨⟨rfl, rfl⟩, ⟨rfl, rfl⟩, ⟨rfl, rfl⟩, ⟨rfl, rfl⟩, ⟨rfl, rfl⟩, ⟨rfl, rfl⟩, ⟨rfl, rfl⟩, by simp⟩

theorem spells_suffixes : ∀ s ∈ suffixes, s.Spells 9 [.phrase 9] := by
  simp only [suffixes, List.forall_mem_cons]
  exact ⟨⟨rfl, rfl⟩, ⟨rfl, rfl⟩, ⟨rfl, rfl⟩, ⟨rfl, rfl⟩, by simp⟩

theorem spells_rules {n : Nat} {r : Rule} (h : rules[n]? = some r) : r.Spells n := by
  match n, h with
  | 0, h | 1, h | 2, h | 3, h | 4, h | 5, h | 6, h | 7, h | 10, h =>
    cases h
    exact ⟨rfl, rfl⟩
  | 8, h =>
    cases h
    exact ⟨rfl, spells_statements⟩
  | 9, h =>
    cases h
    exact ⟨rfl, spells_operands, spells_suffixes⟩

end Grammar

end Throbac
