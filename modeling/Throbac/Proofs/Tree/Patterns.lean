import Throbac.Proofs.Grammar.Derivation
import Throbac.Tree.Pattern

/-!
# Patterns without tags

A tree is compared with a pattern node by node, each before its parts. Where the pattern has no tag,
the first node that departs from its counterpart is found, and no label is made. But phrases are
compared by their parts alone: a phrase of another rule is overlooked if its parts agree. So the first
node that differs is found exactly if it does not differ in its rule alone.
-/
namespace Throbac

namespace ParseTree

mutual

/-- The nodes of a tree with their counterparts, each before its parts. -/
def pairs (t p : ParseTree) : List (ParseTree × ParseTree) :=
  match t with
  | leaf .. => [(t, p)]
  | node _ cs =>
    match p with
    | leaf .. => [(t, p)]
    | node _ ps => (t, p) :: pairsAmong cs ps

def pairsAmong (ts ps : List ParseTree) : List (ParseTree × ParseTree) :=
  match ts with
  | [] => []
  | t :: ts =>
    match ps with
    | [] => []
    | p :: ps => pairs t p ++ pairsAmong ts ps

end

/-- Whether a node differs from its counterpart: in the type or text of its token, in the number of
its parts and, where rules count, in its rule. -/
def differs (rules : Bool) : ParseTree × ParseTree → Bool
  | (leaf s _, leaf p _) => !(s.type == p.type && s.text == p.text)
  | (node i cs, node j ps) => cs.length != ps.length || (rules && i.kind.rule != j.kind.rule)
  | _ => true

mutual

/-- Trees of one shape with the same tokens and, where rules count, the same rules. -/
def Same (rules : Bool) (t p : ParseTree) : Prop :=
  match t with
  | leaf s _ =>
    match p with
    | leaf q _ => s.type = q.type ∧ s.text = q.text
    | node .. => False
  | node i cs =>
    match p with
    | leaf .. => False
    | node j ps => (rules = true → i.kind.rule = j.kind.rule) ∧ SameParts rules cs ps

def SameParts (rules : Bool) (ts ps : List ParseTree) : Prop :=
  match ts with
  | [] => ps = []
  | t :: ts =>
    match ps with
    | [] => False
    | p :: ps => Same rules t p ∧ SameParts rules ts ps

end

def Untagged (p : ParseTree) : Prop := ∀ k ∈ p.leaves, k.tag = none

variable {rules : Bool} {t p : ParseTree} {ts ps : List ParseTree} {q : ParseTree × ParseTree}

theorem untagged_leaf {k : Token} {e : Bool} : (leaf k e).Untagged ↔ k.tag = none := by
  simp [Untagged, leaves, descendants, token?]

theorem untagged_node {i : NodeInfo} : (node i ps).Untagged ↔ ∀ p ∈ ps, p.Untagged := by
  simp only [Untagged, leaves_node, List.mem_flatMap, forall_exists_index, and_imp]
  exact ⟨fun h p hp k hk => h k p hp hk, fun h k p hp hk => h p hp k hk⟩

/-! ## The first node that departs -/

theorem bind_labels {α β : Type} (m : StateM Labels α) (f : α → StateM Labels β) (ls : Labels) :
    (m >>= f) ls = f (m ls).1 (m ls).2 := rfl

theorem fitsLeaf_eq {s k : Token} (hk : k.tag = none) (ls : Labels) :
    t.fitsLeaf s k ls = (s.type == k.type && s.text == k.text, ls) := by
  unfold fitsLeaf
  rw [hk]
  by_cases htype : s.type = k.type
  · rw [if_neg (by simp [htype]), htype, BEq.rfl, Bool.true_and]
    rfl
  · rw [if_pos (by simp [htype]), beq_false_of_ne htype, Bool.false_and]
    rfl

mutual

theorem mismatch?_eq (ls : Labels) : (t p : ParseTree) → p.Untagged →
    t.mismatch? p ls = (((t.pairs p).find? (differs false)).map Prod.fst, ls)
  | leaf s e, leaf k f, hp => by
    rw [pairs, List.find?_singleton, mismatch?, bind_labels, fitsLeaf_eq (untagged_leaf.1 hp), differs]
    cases s.type == k.type && s.text == k.text <;> rfl
  | leaf .., node .., _ => by
    rw [mismatch?, pairs]
    rfl
  | node .., leaf .., _ => by
    rw [mismatch?, pairs]
    rfl
  | node i cs, node j ps, hp => by
    have hparts := mismatchAmong?_eq ls cs ps (untagged_node.1 hp)
    rw [mismatch?, pairs, List.find?_cons, differs, Bool.false_and, Bool.or_false]
    by_cases hlen : cs.length = ps.length
    · rw [if_pos hlen, hparts, hlen, bne_self_eq_false]
    · rw [if_neg hlen, bne_iff_ne.2 hlen]
      rfl

theorem mismatchAmong?_eq (ls : Labels) : (ts ps : List ParseTree) → (∀ p ∈ ps, p.Untagged) →
    mismatchAmong? ts ps ls = (((pairsAmong ts ps).find? (differs false)).map Prod.fst, ls)
  | [], [], _ => rfl
  | _ :: _, [], _ => rfl
  | [], _ :: _, _ => rfl
  | t :: ts, p :: ps, hps => by
    obtain ⟨hp, hps⟩ := List.forall_mem_cons.1 hps
    have hrest := mismatchAmong?_eq ls ts ps hps
    rw [mismatchAmong?, pairsAmong, List.find?_append, bind_labels, mismatch?_eq ls t p hp]
    cases (t.pairs p).find? (differs false) with
    | none => exact hrest
    | some q => rfl

end

/-! ## Trees without a difference -/

mutual

theorem find?_pairs_eq_none_iff (rules : Bool) :
    (t p : ParseTree) → ((t.pairs p).find? (differs rules) = none ↔ t.Same rules p)
  | leaf s e, leaf k f => by
    rw [pairs, Same]
    simp [differs]
  | leaf .., node .. => by
    rw [pairs, Same]
    simp [differs]
  | node .., leaf .. => by
    rw [pairs, Same]
    simp [differs]
  | node i cs, node j ps => by
    rw [pairs, Same, ← find?_pairsAmong_eq_none_iff rules cs ps, List.find?_eq_none, List.forall_mem_cons,
      ← List.find?_eq_none]
    simp only [differs, Bool.or_eq_true, Bool.and_eq_true, bne_iff_ne, not_or, not_and, Decidable.not_not]
    rw [and_assoc, and_left_comm]

theorem find?_pairsAmong_eq_none_iff (rules : Bool) : (ts ps : List ParseTree) →
    (ts.length = ps.length ∧ (pairsAmong ts ps).find? (differs rules) = none ↔ SameParts rules ts ps)
  | [], [] => by simp [pairsAmong, SameParts]
  | [], _ :: _ => by simp [SameParts]
  | _ :: _, [] => by simp [SameParts]
  | t :: ts, p :: ps => by
    rw [pairsAmong, SameParts, ← find?_pairs_eq_none_iff rules t p, ← find?_pairsAmong_eq_none_iff rules ts ps,
      List.find?_append, Option.or_eq_none_iff, List.length_cons, List.length_cons, Nat.add_right_cancel_iff]
    exact and_left_comm

end

theorem differs_of_departs (h : differs false q = true) : differs true q = true := by
  obtain ⟨t, p⟩ := q
  cases t <;> cases p <;> simp_all [differs]

/-- For every pattern without tags, a comparison finds the first node that departs from its counterpart
and leaves the labels as they are. No node differs exactly if the trees have the same shape, rules and
tokens, and the first node that differs is the one found exactly if it departs. -/
theorem mismatch_of_untagged (t : ParseTree) (hp : p.Untagged) (ls : Labels) :
    t.mismatch? p ls = (((t.pairs p).find? (differs false)).map Prod.fst, ls) ∧
    (∀ rules, (t.pairs p).find? (differs rules) = none ↔ t.Same rules p) ∧
    ((t.pairs p).find? (differs false) = (t.pairs p).find? (differs true) ↔
      ∀ q, (t.pairs p).find? (differs true) = some q → differs false q = true) := by
  refine ⟨mismatch?_eq ls t p hp, fun rules => find?_pairs_eq_none_iff rules t p, ?_, ?_⟩
  · intro heq q hq
    exact List.find?_some (heq.trans hq)
  · intro hfirst
    generalize t.pairs p = qs at hfirst
    induction qs with
    | nil => rfl
    | cons q qs ih =>
      rw [List.find?_cons] at hfirst
      rw [List.find?_cons, List.find?_cons]
      cases hdiffers : differs true q with
      | true => rw [hfirst q (by rw [hdiffers])]
      | false =>
        rw [hdiffers] at hfirst
        rw [Bool.eq_false_iff.2 fun h => Bool.false_ne_true (hdiffers.symm.trans (differs_of_departs h))]
        exact ih hfirst

/-- A block of variables and a block of statements, both empty, count as a match, though their rules
differ. -/
theorem mismatch_of_untagged_empty :
    mismatch? (node { kind := .varBlock } []) (node { kind := .block } []) [] = (none, []) ∧
      ¬ (node { kind := .varBlock } []).Same true (node { kind := .block } []) := by
  have hp : (node { kind := .block } []).Untagged := untagged_node.2 (by simp)
  obtain ⟨hfound, -, -⟩ := mismatch_of_untagged (node { kind := .varBlock } []) hp []
  refine ⟨hfound, ?_⟩
  rw [Same]
  exact fun h => absurd (h.1 rfl) (by decide)

end ParseTree

end Throbac
