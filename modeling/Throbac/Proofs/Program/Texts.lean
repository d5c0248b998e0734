import Throbac.Proofs.C.Strings
import Throbac.Proofs.Program.Plain
import Throbac.Proofs.Program.Translation

/-!
# What expressions of texts stand for

An expression of texts, joined and in parentheses, is written as an expression of string constants
and calls of the joining function. What C makes of it is the text between the carets, from left to
right, with a line break for each plus sign.
-/
namespace Throbac

namespace C

/-- What a character stands for behind a backslash. Codes of characters are not among them. -/
def escape? : Char → Option Char
  | 'n' => some '\n'
  | 't' => some '\t'
  | 'r' => some '\r'
  | 'a' => some '\x07'
  | 'b' => some '\x08'
  | 'v' => some '\x0b'
  | 'f' => some '\x0c'
  | '\\' => some '\\'
  | '"' => some '"'
  | '\'' => some '\''
  | '?' => some '?'
  | _ => none

/-- The characters of a string constant, by what stands between its quotes. -/
def decode? : List Char → Option (List Char)
  | [] => some []
  | '\\' :: c :: cs => (escape? c).bind fun d => (decode? cs).map (d :: ·)
  | c :: cs => if ['\\', '"', '\n'].contains c then none else (decode? cs).map (c :: ·)

def joined? : List CString → Option CString
  | [a, b] => some (a.cat b)
  | _ => none

mutual

/-- The string that an expression of string constants and joins stands for. -/
def Expression.text? : Expression → Option CString
  | .string s => (decode? s).map fun cs => CString.ofString (String.ofList cs)
  | .parens e => e.text?
  | .call f es => if f = Expr.joinName then (Expression.textAll? es).bind joined? else none
  | .name _ | .number _ | .minus _ | .binary .. => none

def Expression.textAll? : List Expression → Option (List CString)
  | [] => some []
  | e :: es => e.text?.bind fun s => (Expression.textAll? es).map (s :: ·)

end

/-- A string constant that has no quote, no line break and no percent sign, and a backslash only where
it makes a line break. -/
structure Harmless (w : List Char) : Prop where
  quote : '"' ∉ w
  newline : '\n' ∉ w
  carriage : '\r' ∉ w
  percent : '%' ∉ w
  backslash : ∀ u v, w = u ++ '\\' :: v → v.head? = some 'n'

end C

namespace Expr

def isTextual : Expr → Bool
  | .string _ | .concatenation .. | .parens _ => true
  | _ => false

abbrev Textual : Expr → Prop := Throughout fun e => e.isTextual = true

end Expr

/-! One text. -/

section Text

variable {cs : List Char}

theorem ordinary_of_isText {c : Char} (h : c.isUpper = true ∨ c = '.') :
    ['\\', '"', '\n', '\r', '%', '+'].contains c = false := by
  rcases h with h | rfl
  · have hupper : 65 ≤ c.toNat ∧ c.toNat ≤ 90 := of_decide_eq_true h
    simp only [List.contains_cons, List.contains_nil, Bool.or_false, Bool.or_eq_false_iff,
      beq_eq_false_iff_ne]
    refine ⟨?_, ?_, ?_, ?_, ?_, ?_⟩ <;> rintro rfl <;> revert hupper <;> decide
  · decide

theorem C.Harmless.cons {c : Char} {w : List Char} (h : C.Harmless w)
    (hc : ['\\', '"', '\n', '\r', '%'].contains c = false) : C.Harmless (c :: w) := by
  simp only [List.contains_cons, List.contains_nil, Bool.or_false, Bool.or_eq_false_iff,
    beq_eq_false_iff_ne] at hc
  obtain ⟨hback, hquote, hnewline, hcarriage, hpercent⟩ := hc
  refine ⟨by simp [hquote.symm, h.quote], by simp [hnewline.symm, h.newline],
    by simp [hcarriage.symm, h.carriage], by simp [hpercent.symm, h.percent], ?_⟩
  intro u v hsplit
  cases u with
  | nil => exact absurd (List.cons.inj hsplit).1 hback
  | cons d u => exact h.backslash u v (List.cons.inj hsplit).2

end Text

/-! Expressions of texts. -/

namespace Expr

end Expr

namespace ParseTree

/-- The tree of an expression of texts: all its phrases are texts, joins and parentheses. -/
def Textual (t : ParseTree) : Prop :=
  ∀ s ∈ t.descendants, ∀ k, s.kind? = some k → k = .string ∨ k = .concatenation ∨ k = .parens

theorem Textual.bare {t : ParseTree} (h : t.Textual) : t.bare.Textual := by
  intro s hs k hk
  rw [descendants_bare] at hs
  obtain ⟨u, hu, rfl⟩ := List.mem_map.1 hs
  refine h u hu k ?_
  cases u <;> exact hk

theorem Textual.part {k : NodeKind} {cs : List ParseTree} (h : (phrase k cs).Textual) :
    ∀ c ∈ cs, c.Textual := by
  intro c hc s hs
  refine h s ?_
  rw [descendants_phrase]
  exact List.mem_cons_of_mem _ (List.mem_flatMap_of_mem hc hs)

theorem Textual.kind {k : NodeKind} {cs : List ParseTree} (h : (phrase k cs).Textual) :
    k = .string ∨ k = .concatenation ∨ k = .parens :=
  h (phrase k cs) (by rw [descendants_phrase]; exact List.mem_cons_self) k rfl

theorem textual_phrase {k : NodeKind} {cs : List ParseTree}
    (hk : k = .string ∨ k = .concatenation ∨ k = .parens) (h : ∀ c ∈ cs, c.Textual) :
    (phrase k cs).Textual := by
  intro s hs
  rw [descendants_phrase, List.mem_cons, List.mem_flatMap] at hs
  rcases hs with rfl | ⟨c, hc, hs⟩
  · rintro _ ⟨⟩
    exact hk
  · exact h c hc s hs

theorem textual_word (x : Int) (s : String) : (word x s).Textual := by
  intro u hu
  rw [word, descendants, List.mem_singleton] at hu
  subst hu
  rintro _ ⟨⟩

end ParseTree

namespace Expr

open ParseTree (literal)

theorem rule?_tree (e : Expr) : e.tree.rule? = some ((9 : Nat) : Int) := by cases e <;> rfl

end Expr

open ParseTree (worded_phrase worded_word worded_literal textual_phrase textual_word) in
theorem Expr.textual_tree : (e : Expr) → e.Textual → e.Spelled →
    Derived e.tree ∧ e.tree.Worded ∧ e.tree.Textual
  | .string s, _, hs => by
    have hfits : Lexicon.Fits 34 ("^" ++ s ++ "^") := by
      refine ⟨fun n hn _ hlt => ?_, fun h => ?_, fun _ => ⟨s, hs, rfl⟩, fun h => ?_, fun h => ?_,
        fun h => ?_, fun h => ?_⟩
      · omega
      all_goals cases h
    refine ⟨.node rfl (.token rfl .nil) rfl ?_, worded_phrase.2 ?_, textual_phrase (.inl rfl) ?_⟩
    · exact List.forall_mem_singleton.2 (.leaf _)
    · exact List.forall_mem_singleton.2 (worded_word.2 hfits)
    · exact List.forall_mem_singleton.2 (textual_word _ _)
  | .parens e, h, hs => by
    obtain ⟨hderived, hworded, htextual⟩ := textual_tree e h.2 hs
    refine ⟨.node rfl (.token rfl (.phrase e.rule?_tree (.token rfl .nil))) rfl ?_, worded_phrase.2 ?_,
      textual_phrase (.inr (.inr rfl)) ?_⟩
    all_goals rw [List.forall_mem_cons, List.forall_mem_cons, List.forall_mem_cons]
    · exact ⟨.leaf _, hderived, .leaf _, by simp⟩
    · exact ⟨worded_literal (by decide) (by decide), hworded, worded_literal (by decide) (by decide), by simp⟩
    · exact ⟨textual_word _ _, htextual, textual_word _ _, by simp⟩
  | .concatenation l r, h, hs => by
    obtain ⟨hderived, hworded, htextual⟩ := textual_tree l h.2.1 hs.1
    obtain ⟨hderived', hworded', htextual'⟩ := textual_tree r h.2.2 hs.2
    refine ⟨.node rfl (.phrase l.rule?_tree (.token rfl (.phrase r.rule?_tree .nil))) rfl ?_,
      worded_phrase.2 ?_, textual_phrase (.inr (.inl rfl)) ?_⟩
    all_goals rw [List.forall_mem_cons, List.forall_mem_cons, List.forall_mem_cons]
    · exact ⟨hderived, .leaf _, hderived', by simp⟩
    · exact ⟨hworded, worded_literal (by decide) (by decide), hworded', by simp⟩
    · exact ⟨htextual, textual_word _ _, htextual', by simp⟩

end Throbac
