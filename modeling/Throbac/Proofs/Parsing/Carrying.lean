import Throbac.Proofs.Grammar.Derivation
import Throbac.Proofs.Parsing.State

/-!
# What becomes of the tokens

Every token that a parser passes becomes a leaf of the innermost phrase. Besides those the phrase may
get the end of the input, any number of times, and tokens that recovery made up.
-/
namespace Throbac

namespace Token

/-- The token has a place in the input and is not its end. -/
def isReal (t : Token) : Bool := t.index != -1 && !t.isEof

def MadeUp (t : Token) : Prop :=
  t.index = -1 ∧ ∃ name, t.given = some ("<missing " ++ name ++ ">")

def Extra (t : Token) : Prop := t.isEof = true ∨ t.MadeUp

theorem isReal_of_extra {t : Token} (h : t.Extra) : t.isReal = false := by
  rcases h with heof | hmade
  · simp [isReal, heof]
  · simp [isReal, hmade.1]

end Token

namespace Tape

variable {T : Tape} {i j k : Nat} {ts us : List Token}

theorem isReal_token (h : i < T.last) : (T.token i).isReal = true := by
  have heof := isEof_token (Nat.le_of_lt h)
  rw [decide_eq_false (Nat.ne_of_lt h)] at heof
  have hindex : (T.token i).index ≠ -1 := by
    rw [index_token (Nat.le_of_lt h)]
    omega
  simp [Token.isReal, heof, hindex]

/-- Going from place to place, with the leaves made on the way: every token that is passed, and extra
ones. -/
inductive Trail (T : Tape) : Nat → List Token → Nat → Prop
  | nil {i : Nat} : Trail T i [] i
  | take {i j : Nat} {ts : List Token} (hi : i < T.last) (h : Trail T (T.seek (i + 1)) ts j) :
    Trail T i (T.token i :: ts) j
  | extra {i j : Nat} {x : Token} {ts : List Token} (hx : x.Extra) (h : Trail T i ts j) :
    Trail T i (x :: ts) j

namespace Trail

theorem append (h : T.Trail i ts j) (h' : T.Trail j us k) : T.Trail i (ts ++ us) k := by
  induction h with
  | nil => exact h'
  | take hi _ ih => exact .take hi (ih h')
  | extra hx _ ih => exact .extra hx (ih h')

theorem single (h : i ≤ T.last) : T.Trail i [T.token i] (T.seek (i + 1)) := by
  rcases Nat.lt_or_eq_of_le h with hlt | rfl
  · exact .take hlt .nil
  · rw [seek_of_last_lt (Nat.lt_succ_self _)]
    refine .extra (.inl ?_) .nil
    rw [isEof_token h, decide_eq_true rfl]

theorem ahead_eq (h : T.Trail i ts j) (hi : T.seek i = i) :
    T.ahead i = ts.filter Token.isReal ++ T.ahead j := by
  induction h with
  | nil => rfl
  | @take i j ts hlt _ ih =>
    have hv : visible (T.token i) = true := hi ▸ visible_token_seek
    rw [Tape.ahead_eq (Nat.le_of_lt hlt) hv, ahead_seek (show i + 1 ≤ T.last from hlt), ih seek_seek,
      List.filter_cons_of_pos (isReal_token hlt)]
    rfl
  | extra hx _ ih =>
    rw [List.filter_cons_of_neg (by simp [Token.isReal_of_extra hx])]
    exact ih hi

theorem real_or_extra (h : T.Trail i ts j) : ∀ t ∈ ts, t.isReal = true ∨ t.Extra := by
  induction h with
  | nil => simp
  | take hi _ ih => exact List.forall_mem_cons.2 ⟨.inl (isReal_token hi), ih⟩
  | extra hx _ ih => exact List.forall_mem_cons.2 ⟨.inr hx, ih⟩

end Trail

end Tape

namespace Parser

variable {R : CacheCondition} {T : Tape} {p p' p'' : Parser}

/-- The parser went on within the innermost phrase, to which the tokens on the way were added. -/
def Carries (T : Tape) (p p' : Parser) : Prop :=
  ∃ f f' rest ts, p.stack = f :: rest ∧ p'.stack = f' :: rest ∧ f'.attached = f.attached ∧
    f'.close.leaves = f.close.leaves ++ ts ∧ T.Trail p.place ts p'.place

namespace Carries

theorem of_leaves {f g : Frame} {rest : List Frame} (hs : p.stack = f :: rest)
    (hs' : p'.stack = g :: rest) (ha : g.attached = f.attached)
    (hl : g.close.leaves = f.close.leaves) (hp : p'.place = p.place) : Carries T p p' :=
  ⟨f, g, rest, [], hs, hs', ha, by rw [hl, List.append_nil], by rw [hp]; exact .nil⟩

theorem of_stack (hne : p.stack ≠ []) (hs : p'.stack = p.stack) (hp : p'.place = p.place) :
    Carries T p p' := by
  obtain ⟨f, rest, hf⟩ := List.exists_cons_of_ne_nil hne
  exact of_leaves hf (hs.trans hf) rfl rfl hp

theorem refl (h : Good R T p) : Carries T p p := of_stack h.stack_ne_nil rfl rfl

theorem trans (h : Carries T p p') (h' : Carries T p' p'') : Carries T p p'' := by
  obtain ⟨f, f', rest, ts, hs, hs', ha, hl, htrail⟩ := h
  obtain ⟨g, g', rest', us, ht, ht', ha', hl', htrail'⟩ := h'
  obtain ⟨rfl, rfl⟩ := List.cons.inj (hs'.symm.trans ht)
  refine ⟨f, g', rest, ts ++ us, hs, ht', ha'.trans ha, ?_, htrail.append htrail'⟩
  rw [hl', hl, List.append_assoc]

theorem after (h : Carries T p' p'') (hs : p'.stack = p.stack) (hp : p'.place = p.place) :
    Carries T p p'' := by
  unfold Carries at h ⊢
  rwa [hs, hp] at h

theorem before (h : Carries T p p') (hs : p''.stack = p'.stack) (hp : p''.place = p'.place) :
    Carries T p p'' := by
  unfold Carries at h ⊢
  rwa [hs, hp]

end Carries

theorem leaves_close (f : Frame) : f.close.leaves = f.parts.reverse.flatMap ParseTree.leaves :=
  ParseTree.leaves_node _ _

theorem leaves_add (f : Frame) (t : ParseTree) :
    (f.add t).close.leaves = f.close.leaves ++ t.leaves := by
  simp [Frame.close, Frame.add, ParseTree.leaves_node]

theorem Carries.of_add {t : ParseTree} (hne : p.stack ≠ [])
    (hs : p'.stack = p.stack.modifyHead (·.add t)) (ht : T.Trail p.place t.leaves p'.place) :
    Carries T p p' := by
  obtain ⟨f, rest, hf⟩ := List.exists_cons_of_ne_nil hne
  exact ⟨f, f.add t, rest, t.leaves, hf, by rw [hs, hf]; rfl, rfl, leaves_add f t, ht⟩

/-- The innermost phrase has no parts but skipped tokens. -/
def Unbegun (p : Parser) : Prop := ∀ f ∈ p.stack.head?, ∀ c ∈ f.parts, ∃ t, c = .leaf t true

theorem Unbegun.of_stack (h : Unbegun p) (hs : p'.stack = p.stack) : Unbegun p' := by
  unfold Unbegun at h ⊢
  rwa [hs]

theorem leaves_become {f : Frame} (h : ∀ c ∈ f.parts, ∃ t, c = .leaf t true) (kind : NodeKind) :
    (f.become kind).close.leaves = f.close.leaves := by
  have hparts : (f.become kind).parts = f.parts := by
    refine List.filter_eq_self.2 fun c hc => ?_
    obtain ⟨t, rfl⟩ := h c hc
    rfl
  rw [leaves_close, leaves_close, hparts]

end Parser

end Throbac
