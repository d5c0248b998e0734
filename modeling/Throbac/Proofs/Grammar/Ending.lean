import Throbac.Proofs.Grammar.Derivation

/-!
# Where the end of the input stands

Of all phrases only a script asks for the end of the input, and no phrase has a script within it. So
the leaves of a derived tree are free of the end, and those of a script have it once, at their end.
-/
namespace Throbac

theorem Consists.split {is js : List Item} {cs : List ParseTree} {o : Option Token}
    (h : Consists (is ++ js) cs o) :
    ∃ cs₁ cs₂ o₁ o₂, cs = cs₁ ++ cs₂ ∧ o = o₂.or o₁ ∧ Consists is cs₁ o₁ ∧ Consists js cs₂ o₂ := by
  have hnone : ∀ {cs o}, Consists js cs o → ∃ cs₁ cs₂ o₁ o₂, cs = cs₁ ++ cs₂ ∧ o = o₂.or o₁ ∧
      Consists [] cs₁ o₁ ∧ Consists js cs₂ o₂ :=
    fun h => ⟨[], _, none, _, rfl, Option.or_none.symm, .nil, h⟩
  generalize hks : is ++ js = ks at h
  induction h generalizing is with
  | nil =>
    obtain ⟨rfl, rfl⟩ := List.append_eq_nil_iff.1 hks
    exact hnone .nil
  | token hx h ih =>
    rcases List.append_eq_cons_iff.1 hks with ⟨rfl, rfl⟩ | ⟨is, rfl, rfl⟩
    · exact hnone (.token hx h)
    · obtain ⟨cs₁, cs₂, o₁, o₂, rfl, rfl, h₁, h₂⟩ := ih rfl
      exact ⟨_ :: cs₁, cs₂, o₁, o₂, rfl, rfl, .token hx h₁, h₂⟩
  | operator hx h ih =>
    rcases List.append_eq_cons_iff.1 hks with ⟨rfl, rfl⟩ | ⟨is, rfl, rfl⟩
    · exact hnone (.operator hx h)
    · obtain ⟨cs₁, cs₂, o₁, o₂, rfl, rfl, h₁, h₂⟩ := ih rfl
      exact ⟨_ :: cs₁, cs₂, _, o₂, rfl, Option.or_assoc, .operator hx h₁, h₂⟩
  | phrase hc h ih =>
    rcases List.append_eq_cons_iff.1 hks with ⟨rfl, rfl⟩ | ⟨is, rfl, rfl⟩
    · exact hnone (.phrase hc h)
    · obtain ⟨cs₁, cs₂, o₁, o₂, rfl, rfl, h₁, h₂⟩ := ih rfl
      exact ⟨_ :: cs₁, cs₂, o₁, o₂, rfl, rfl, .phrase hc h₁, h₂⟩
  | skip h ih =>
    rcases List.append_eq_cons_iff.1 hks with ⟨rfl, rfl⟩ | ⟨is, rfl, rfl⟩
    · exact hnone (.skip h)
    · obtain ⟨cs₁, cs₂, o₁, o₂, rfl, rfl, h₁, h₂⟩ := ih rfl
      exact ⟨cs₁, cs₂, o₁, o₂, rfl, rfl, .skip h₁, h₂⟩
  | @take xs _ _ _ h ih =>
    rcases List.append_eq_cons_iff.1 hks with ⟨rfl, rfl⟩ | ⟨is, rfl, rfl⟩
    · exact hnone (.take h)
    · obtain ⟨cs₁, cs₂, o₁, o₂, rfl, rfl, h₁, h₂⟩ := ih (List.append_assoc xs is js)
      exact ⟨cs₁, cs₂, o₁, o₂, rfl, rfl, .take h₁, h₂⟩
  | done h ih =>
    rcases List.append_eq_cons_iff.1 hks with ⟨rfl, rfl⟩ | ⟨is, rfl, rfl⟩
    · exact hnone (.done h)
    · obtain ⟨cs₁, cs₂, o₁, o₂, rfl, rfl, h₁, h₂⟩ := ih rfl
      exact ⟨cs₁, cs₂, o₁, o₂, rfl, rfl, .done h₁, h₂⟩
  | @round xs _ _ _ h ih =>
    rcases List.append_eq_cons_iff.1 hks with ⟨rfl, rfl⟩ | ⟨is, rfl, rfl⟩
    · exact hnone (.round h)
    · obtain ⟨cs₁, cs₂, o₁, o₂, rfl, rfl, h₁, h₂⟩ := ih (List.append_assoc xs (.many xs :: is) js)
      exact ⟨cs₁, cs₂, o₁, o₂, rfl, rfl, .round h₁, h₂⟩

namespace Item

mutual

/-- Whether the item asks neither for the end of the input nor for a whole script. -/
def isInner : Item → Bool
  | .token x => x != Symbol.eof
  | .operator xs => !xs.contains Symbol.eof
  | .phrase r => r != 0
  | .optional is | .many is => areInner is

def areInner : List Item → Bool
  | [] => true
  | i :: is => i.isInner && areInner is

end

theorem areInner_append (is js : List Item) : areInner (is ++ js) = (areInner is && areInner js) := by
  induction is with
  | nil => rfl
  | cons i is ih => rw [List.cons_append, areInner, areInner, ih, Bool.and_assoc]

end Item

/-- Whether the tree is neither the end of the input nor a whole script. -/
def ParseTree.isInner : ParseTree → Bool
  | .leaf t _ => !t.isEof
  | .node i _ => i.kind.rule != 0

theorem Consists.isInner {is : List Item} {cs : List ParseTree} {o : Option Token}
    (h : Consists is cs o) (hi : Item.areInner is = true) : ∀ c ∈ cs, c.isInner = true := by
  induction h with
  | nil => simp
  | @token x _ _ _ t hx _ ih =>
    rw [Item.areInner, Bool.and_eq_true] at hi
    refine List.forall_mem_cons.2 ⟨?_, ih hi.2⟩
    simpa [ParseTree.isInner, Token.isEof, hx, Item.isInner] using hi.1
  | @operator xs _ _ _ t hx _ ih =>
    rw [Item.areInner, Bool.and_eq_true] at hi
    refine List.forall_mem_cons.2 ⟨?_, ih hi.2⟩
    have hne : Symbol.eof ∉ xs := by simpa [Item.isInner] using hi.1
    have : t.type ≠ Symbol.eof := fun he => hne (he ▸ hx)
    simpa [ParseTree.isInner, Token.isEof] using this
  | @phrase r _ _ _ c hc _ ih =>
    rw [Item.areInner, Bool.and_eq_true] at hi
    refine List.forall_mem_cons.2 ⟨?_, ih hi.2⟩
    cases c with
    | leaf t e => cases hc
    | node i ds =>
      have hrule : i.kind.rule = r := Option.some.inj hc
      have hr : r ≠ 0 := by simpa [Item.isInner] using hi.1
      simpa [ParseTree.isInner, hrule] using hr
  | skip _ ih | done _ ih =>
    rw [Item.areInner, Bool.and_eq_true] at hi
    exact ih hi.2
  | take _ ih =>
    rw [Item.areInner, Bool.and_eq_true, Item.isInner] at hi
    exact ih (by rw [Item.areInner_append, hi.1, hi.2]; rfl)
  | round _ ih =>
    refine ih ?_
    rw [Item.areInner_append, hi, Bool.and_true]
    rw [Item.areInner, Bool.and_eq_true, Item.isInner] at hi
    exact hi.1

theorem Grammar.areInner_production {k : NodeKind} {is : List Item} (h : production k = some is)
    (hk : k.rule ≠ 0) : Item.areInner is = true := by
  cases k <;> simp only [production, Option.some.injEq, reduceCtorEq] at h
  case script => exact absurd rfl hk
  all_goals
    subst h
    rfl

theorem Derived.isEof_leaves {t : ParseTree} (h : Derived t) (ht : t.isInner = true) :
    ∀ x ∈ t.leaves, x.isEof = false := by
  induction h with
  | leaf x =>
    rw [ParseTree.leaves_leaf, List.forall_mem_singleton]
    simpa [ParseTree.isInner] using ht
  | @node i is cs hkind hparts _ _ ih =>
    have hrule : i.kind.rule ≠ 0 := by simpa [ParseTree.isInner] using ht
    have hinner := hparts.isInner (Grammar.areInner_production hkind hrule)
    intro x hx
    rw [ParseTree.leaves_node, List.mem_flatMap] at hx
    obtain ⟨c, hc, hx⟩ := hx
    exact ih c hc (hinner c hc) x hx

theorem Derived.leaves_script {t : ParseTree} (h : Derived t) (ht : t.rule? = some 0) :
    ∃ ts x, t.leaves = ts ++ [x] ∧ (∀ y ∈ ts, y.isEof = false) ∧ x.isEof = true := by
  cases h with
  | leaf => cases ht
  | @node i is cs hkind hparts _ hall =>
    have hrule : i.kind.rule = 0 := Option.some.inj ht
    have hscript : i.kind = .script := by
      cases hk : i.kind <;> rw [hk] at hrule hkind <;> first | rfl | cases hrule
    rw [hscript] at hkind
    have hitems : some ([Item.many [Item.phrase 1], Item.phrase 2] ++ [Item.token (-1)]) = some is :=
      hkind
    obtain rfl := Option.some.inj hitems
    obtain ⟨cs₁, cs₂, o₁, o₂, rfl, _, h₁, h₂⟩ := hparts.split
    cases h₂ with
    | @token _ _ _ _ x hx hnil =>
      cases hnil
      refine ⟨cs₁.flatMap ParseTree.leaves, x, ?_, fun y hy => ?_, by simp [Token.isEof, hx, Symbol.eof]⟩
      · rw [ParseTree.leaves_node, List.flatMap_append]
        rfl
      · obtain ⟨c, hc, hy⟩ := List.mem_flatMap.1 hy
        exact (hall c (List.mem_append_left _ hc)).isEof_leaves (h₁.isInner rfl c hc) y hy

end Throbac
