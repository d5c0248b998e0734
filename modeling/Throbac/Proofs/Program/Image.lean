import Throbac.Program.CText
import Throbac.Proofs.C.Expressions

/-!
# What is written for an expression

The C text of an expression falls into the lexemes of a C expression with the same structure, its
image: a negation becomes a minus in parentheses, a joining of texts a call, and truth values become
numbers. Names and texts are spelled as programs spell them, and the numerals must be short enough
to be written.
-/
namespace Throbac

def MulOp.operator : MulOp → C.Operator
  | congero => .times
  | partio => .divided

def AddOp.operator : AddOp → C.Operator
  | addo => .plus
  | subtraho => .minus

def CompareOp.operator : CompareOp → C.Operator
  | idem => .equal
  | niIdem => .unequal
  | infra => .less
  | infraIdem => .atMost
  | supra => .greater
  | supraIdem => .atLeast

theorem MulOp.toList_toC (op : MulOp) : op.toC.toList = op.operator.mark := by cases op <;> rfl

theorem AddOp.toList_toC (op : AddOp) : op.toC.toList = op.operator.mark := by cases op <;> rfl

theorem CompareOp.toList_toC (op : CompareOp) : op.toC.toList = op.operator.mark := by
  cases op <;> rfl

namespace Expr

section Every

variable (numeral : Numeral → Prop) (text name : String → Prop)

mutual

/-- Every numeral, every text and every name in an expression is as it should be. -/
def Every : Expr → Prop
  | .number n => numeral n
  | .string s => text s
  | .bool _ => True
  | .name id => name id
  | .parens e | .negation _ e => e.Every
  | .mulDiv _ l r | .addSub _ l r | .concatenation l r | .compare _ l r => l.Every ∧ r.Every
  | .call f es => name f ∧ EveryAll es

def EveryAll : List Expr → Prop
  | [] => True
  | e :: es => e.Every ∧ EveryAll es

end

end Every

end Expr

def IsName (s : String) : Prop := s.toList ≠ [] ∧ ∀ c ∈ s.toList, c.isLower = true

def IsText (s : String) : Prop := ∀ c ∈ s.toList, c.isUpper = true ∨ c = '.' ∨ c = '+'

instance (s : String) : Decidable (IsName s) :=
  decidable_of_iff ((!s.toList.isEmpty && s.toList.all Char.isLower) = true) (by simp [IsName])

instance (s : String) : Decidable (IsText s) :=
  decidable_of_iff (s.toList.all (fun c => c.isUpper || c == '.' || c == '+') = true)
    (by simp [IsText, or_assoc])

namespace Expr

/-- Names and texts are spelled as the lexer reads them. -/
abbrev Spelled : Expr → Prop := Every (fun _ => True) IsText IsName

abbrev SpelledAll : List Expr → Prop := EveryAll (fun _ => True) IsText IsName

abbrev Short : Expr → Prop :=
  Every (fun n => n.digits.length ≤ Numeral.maxDigits) (fun _ => True) fun _ => True

abbrev ShortAll : List Expr → Prop :=
  EveryAll (fun n => n.digits.length ≤ Numeral.maxDigits) (fun _ => True) fun _ => True

def joinName : List Char := ['_', '_', 't', 'h', 'r', 'o', 'b', 'a', 'c', '_', 'c', 'a', 't']

/-- A text between quotes, with line breaks for its plus signs. -/
def escaped (s : String) : List Char := s.toList.flatMap fun c => if c = '+' then ['\\', 'n'] else [c]

def truth (b : Bool) : List Char := if b then ['1'] else ['0']

mutual

/-- The text of an expression whose numerals can all be written. -/
def written : Expr → List Char
  | .number n => (toString n.value).toList
  | .string s => '"' :: (escaped s ++ ['"'])
  | .bool b => truth b
  | .name id => id.toList
  | .parens e => '(' :: (e.written ++ [')'])
  | .negation _ e => '(' :: '-' :: (e.written ++ [')'])
  | .mulDiv op l r => l.written ++ ' ' :: (op.operator.mark ++ ' ' :: r.written)
  | .addSub op l r => l.written ++ ' ' :: (op.operator.mark ++ ' ' :: r.written)
  | .concatenation l r => joinName ++ '(' :: (l.written ++ ',' :: (r.written ++ [')']))
  | .compare op l r => l.written ++ ' ' :: (op.operator.mark ++ ' ' :: r.written)
  | .call f es => f.toList ++ '(' :: (writtenAll es ++ [')'])

def writtenAll : List Expr → List Char
  | [] => []
  | [e] => e.written
  | e :: e' :: es => e.written ++ ',' :: writtenAll (e' :: es)

end

theorem writtenAll_eq (es : List Expr) : writtenAll es = [','].intercalate (es.map written) := by
  induction es with
  | nil => rfl
  | cons e es ih =>
    cases es with
    | nil => simp [writtenAll]
    | cons e' es => simp [writtenAll, ih, List.intercalate]

theorem ok_eq_ok_ofList {s : String} {cs : List Char} (h : s.toList = cs) :
    (.ok s : Except Fault String) = .ok (String.ofList cs) := by
  rw [← h, String.ofList_toList]

mutual

theorem toC_of_short : (e : Expr) → e.Short → e.toC = .ok (String.ofList e.written)
  | .number n, h => by
    rw [Expr.toC, Numeral.decimal, if_neg (Nat.not_lt.2 h), written, String.ofList_toList]
  | .string s, _ => ok_eq_ok_ofList (by simp [CText.quoted, written, escaped])
  | .bool b, _ => ok_eq_ok_ofList (by cases b <;> rfl)
  | .name id, _ => ok_eq_ok_ofList rfl
  | .parens e, h => by
    rw [Expr.toC, e.toC_of_short h]
    exact ok_eq_ok_ofList (by simp [written])
  | .negation _ e, h => by
    rw [Expr.toC, e.toC_of_short h]
    exact ok_eq_ok_ofList (by simp [written])
  | .mulDiv op l r, h => by
    rw [Expr.toC, l.toC_of_short h.1, r.toC_of_short h.2]
    exact ok_eq_ok_ofList (by simp [written, op.toList_toC])
  | .addSub op l r, h => by
    rw [Expr.toC, l.toC_of_short h.1, r.toC_of_short h.2]
    exact ok_eq_ok_ofList (by simp [written, op.toList_toC])
  | .concatenation l r, h => by
    rw [Expr.toC, l.toC_of_short h.1, r.toC_of_short h.2]
    exact ok_eq_ok_ofList (by simp [written, joinName])
  | .compare op l r, h => by
    rw [Expr.toC, l.toC_of_short h.1, r.toC_of_short h.2]
    exact ok_eq_ok_ofList (by simp [written, op.toList_toC])
  | .call f es, h => by
    rw [Expr.toC, allToC_of_short es h.2]
    exact ok_eq_ok_ofList (by simp [written, writtenAll_eq, Function.comp_def])

theorem allToC_of_short : (es : List Expr) → ShortAll es →
    allToC es = .ok (es.map fun e => String.ofList e.written)
  | [], _ => rfl
  | e :: es, h => by
    rw [allToC, e.toC_of_short h.1, allToC_of_short es h.2]
    rfl

end

theorem ok_of_bind {α β : Type} {m : Except Fault α} {f : α → Except Fault β} {b : β}
    (h : m >>= f = .ok b) : ∃ a, m = .ok a ∧ f a = .ok b := by
  cases m with
  | error e => cases h
  | ok a => exact ⟨a, rfl, h⟩

mutual

theorem short_of_toC : (e : Expr) → {s : String} → e.toC = .ok s → e.Short
  | .number n, s, h => by
    rw [Expr.toC, Numeral.decimal] at h
    split at h
    · cases h
    · next hn => exact Nat.not_lt.1 hn
  | .string s, _, _ | .bool b, _, _ | .name id, _, _ => trivial
  | .parens e, _, h | .negation _ e, _, h => by
    rw [Expr.toC] at h
    obtain ⟨_, he, _⟩ := ok_of_bind h
    exact e.short_of_toC he
  | .mulDiv _ l r, _, h | .addSub _ l r, _, h | .concatenation l r, _, h | .compare _ l r, _, h => by
    rw [Expr.toC] at h
    obtain ⟨_, hl, h⟩ := ok_of_bind h
    obtain ⟨_, hr, _⟩ := ok_of_bind h
    exact ⟨l.short_of_toC hl, r.short_of_toC hr⟩
  | .call _ es, _, h => by
    rw [Expr.toC] at h
    obtain ⟨_, hes, _⟩ := ok_of_bind h
    exact ⟨trivial, shortAll_of_allToC es hes⟩

theorem shortAll_of_allToC : (es : List Expr) → {ss : List String} → allToC es = .ok ss → ShortAll es
  | [], _, _ => trivial
  | e :: es, _, h => by
    rw [allToC] at h
    obtain ⟨_, he, h⟩ := ok_of_bind h
    obtain ⟨_, hes, _⟩ := ok_of_bind h
    exact ⟨e.short_of_toC he, shortAll_of_allToC es hes⟩

end

mutual

def lexemes : Expr → List C.Lexeme
  | .number n => [.number (toString n.value).toList]
  | .string s => [.string (escaped s)]
  | .bool b => [.number (truth b)]
  | .name id => [.word id.toList false]
  | .parens e => .mark ['('] :: (e.lexemes ++ [.mark [')']])
  | .negation _ e => .mark ['('] :: .mark ['-'] :: (e.lexemes ++ [.mark [')']])
  | .mulDiv op l r => l.lexemes ++ .mark op.operator.mark :: r.lexemes
  | .addSub op l r => l.lexemes ++ .mark op.operator.mark :: r.lexemes
  | .concatenation l r =>
    .word joinName true :: .mark ['('] :: ((l.lexemes ++ .mark [','] :: r.lexemes) ++ [.mark [')']])
  | .compare op l r => l.lexemes ++ .mark op.operator.mark :: r.lexemes
  | .call f es => .word f.toList true :: .mark ['('] :: (lexemesAll es ++ [.mark [')']])

def lexemesAll : List Expr → List C.Lexeme
  | [] => []
  | [e] => e.lexemes
  | e :: e' :: es => e.lexemes ++ .mark [','] :: lexemesAll (e' :: es)

end

end Expr

namespace C

theorem isLetter_of_isLower {c : Char} (h : c.isLower = true) : isLetter c = true := by
  rw [isLetter, show c.isAlpha = true from Bool.or_eq_true_iff.2 (.inr h), Bool.true_or]

theorem isWordChar_of_isLower {c : Char} (h : c.isLower = true) : isWordChar c = true := by
  simp [isWordChar, isLetter_of_isLower h]

theorem scan_name {s : String} (hs : IsName s) {rest : List Char}
    (hrest : ∀ c ∈ rest.head?, isWordChar c = false) :
    scan (s.toList ++ rest) = .word s.toList (rest.head? == some '(') :: scan rest := by
  obtain ⟨hne, hall⟩ := hs
  obtain ⟨c, w, hw⟩ := List.exists_cons_of_ne_nil hne
  rw [hw] at hall ⊢
  exact scan_word (isLetter_of_isLower (hall c List.mem_cons_self))
    (fun d hd => isWordChar_of_isLower (hall d (List.mem_cons_of_mem _ hd))) hrest

theorem digits_cons (n : Nat) :
    ∃ c w, (toString n).toList = c :: w ∧ ∀ d ∈ c :: w, d.isDigit = true := by
  have heq : (toString n).toList = Nat.toDigits 10 n := by
    rw [Nat.toString_eq_repr, Nat.repr_eq_ofList_toDigits, String.toList_ofList]
  obtain ⟨c, w, hw⟩ := List.exists_cons_of_ne_nil (Nat.toDigits_ne_nil (n := n) (b := 10))
  exact ⟨c, w, heq.trans hw, fun d hd => Nat.isDigit_of_mem_toDigits (by decide) (by decide) (hw ▸ hd)⟩

theorem scan_digits (n : Nat) {rest : List Char} (hrest : ∀ c ∈ rest.head?, isWordChar c = false) :
    scan ((toString n).toList ++ rest) = .number (toString n).toList :: scan rest := by
  obtain ⟨c, w, hw, hdigit⟩ := digits_cons n
  rw [hw]
  exact scan_number (hdigit c List.mem_cons_self)
    (fun d hd => by simp [isWordChar, hdigit d (List.mem_cons_of_mem _ hd)]) hrest

theorem untilQuote_cons {c : Char} (hq : c ≠ '"') (hb : c ≠ '\\') (cs : List Char) :
    untilQuote (c :: cs) = (untilQuote cs).map fun (s, rest) => (c :: s, rest) := by
  rw [untilQuote]
  · exact hq
  · intro d ds hc _
    exact hb hc

theorem untilQuote_escaped {s : String} (hs : IsText s) (rest : List Char) :
    untilQuote (Expr.escaped s ++ '"' :: rest) = some (Expr.escaped s, rest) := by
  unfold Expr.escaped
  unfold IsText at hs
  generalize s.toList = cs at hs ⊢
  induction cs with
  | nil => rfl
  | cons c cs ih =>
    have ih := ih fun d hd => hs d (List.mem_cons_of_mem _ hd)
    rw [List.flatMap_cons]
    by_cases hplus : c = '+'
    · rw [if_pos hplus, List.append_assoc, List.cons_append, List.cons_append, List.nil_append,
        untilQuote, ih]
      rfl
    · have hc : c ≠ '"' ∧ c ≠ '\\' := by
        rcases hs c List.mem_cons_self with h | rfl | rfl
        · constructor <;> rintro rfl <;> exact absurd h (by decide)
        · decide
        · decide
      rw [if_neg hplus, List.append_assoc, List.cons_append, List.nil_append,
        untilQuote_cons hc.1 hc.2, ih]
      rfl

theorem scan_operator (op : Operator) (rest : List Char) :
    scan (' ' :: (op.mark ++ ' ' :: rest)) = .mark op.mark :: scan rest := by
  have hblank : Text.isBlank ' ' = true := by decide
  have hlone : ∀ {c : Char}, isMark c = true → (c, ' ') ∉ pairs →
      scan (c :: ' ' :: rest) = .mark [c] :: scan (' ' :: rest) := by
    intro c hc hp
    refine scan_mark hc fun d hd => ?_
    cases hd
    exact hp
  rw [scan_blank hblank, ← scan_blank hblank rest]
  cases op with
  | times | divided | plus | minus | less | greater => exact hlone (by decide) (by decide)
  | atMost | atLeast | equal | unequal => exact scan_pair (by decide) (by decide) _

theorem scan_open (rest : List Char) : scan ('(' :: rest) = .mark ['('] :: scan rest :=
  scan_lone (by decide) (by decide) rest

theorem scan_close (rest : List Char) : scan (')' :: rest) = .mark [')'] :: scan rest :=
  scan_lone (by decide) (by decide) rest

theorem scan_comma (rest : List Char) : scan (',' :: rest) = .mark [','] :: scan rest :=
  scan_lone (by decide) (by decide) rest

theorem breaks_close (rest : List Char) : Breaks (')' :: rest) := breaks_cons (by decide)

theorem breaks_comma (rest : List Char) : Breaks (',' :: rest) := breaks_cons (by decide)

theorem breaks_blank (rest : List Char) : Breaks (' ' :: rest) := breaks_cons (by decide)

end C

namespace Expr

theorem head_written : (e : Expr) → e.Spelled →
    ∃ c cs, e.written = c :: cs ∧ (C.isWordChar c = true ∨ c = '"' ∨ c = '(')
  | .number n, _ => by
    obtain ⟨c, w, hw, hdigit⟩ := C.digits_cons n.value
    exact ⟨c, w, hw, .inl (by simp [C.isWordChar, hdigit c List.mem_cons_self])⟩
  | .string s, _ => ⟨'"', _, rfl, by simp⟩
  | .bool b, _ => by cases b <;> exact ⟨_, _, rfl, .inl (by decide)⟩
  | .name id, h => by
    obtain ⟨c, w, hw⟩ := List.exists_cons_of_ne_nil h.1
    exact ⟨c, w, hw, .inl (C.isWordChar_of_isLower (h.2 c (hw ▸ List.mem_cons_self)))⟩
  | .parens e, _ | .negation _ e, _ => ⟨'(', _, rfl, by simp⟩
  | .mulDiv _ l r, h | .addSub _ l r, h | .compare _ l r, h => by
    obtain ⟨c, cs, hl, hc⟩ := l.head_written h.1
    exact ⟨c, _, by rw [written, hl, List.cons_append], hc⟩
  | .concatenation l r, _ => ⟨'_', _, rfl, .inl (by decide)⟩
  | .call f es, h => by
    obtain ⟨c, w, hw⟩ := List.exists_cons_of_ne_nil h.1.1
    exact ⟨c, _, by rw [written, hw, List.cons_append],
      .inl (C.isWordChar_of_isLower (h.1.2 c (hw ▸ List.mem_cons_self)))⟩

theorem scan_minus (e : Expr) (h : e.Spelled) (rest : List Char) :
    C.scan ('-' :: (e.written ++ rest)) = .mark ['-'] :: C.scan (e.written ++ rest) := by
  obtain ⟨c, cs, hw, hc⟩ := e.head_written h
  refine C.scan_mark (by decide) fun d hd hp => ?_
  rw [hw] at hd
  cases hd
  rcases hc with hc | rfl | rfl
  · have : c = '-' ∨ c = '=' ∨ c = '>' := by
      simpa [C.pairs] using hp
    rcases this with rfl | rfl | rfl <;> exact absurd hc (by decide)
  · exact absurd hp (by decide)
  · exact absurd hp (by decide)

mutual

theorem scan_written : (e : Expr) → e.Spelled → {rest : List Char} → C.Breaks rest →
    C.scan (e.written ++ rest) = e.lexemes ++ C.scan rest
  | .number n, _, rest, hrest => C.scan_digits n.value fun c hc => (hrest c hc).1
  | .string s, h, rest, hrest => by
    rw [written, List.cons_append, List.append_assoc]
    exact C.scan_string (C.untilQuote_escaped h rest)
  | .bool b, _, rest, hrest => by
    have hdigit : ∀ {c : Char}, c.isDigit = true → C.scan ([c] ++ rest) = .number [c] :: C.scan rest :=
      fun hc => C.scan_number hc (by simp) fun c hc => (hrest c hc).1
    cases b with
    | true => exact hdigit (by decide)
    | false => exact hdigit (by decide)
  | .name id, h, rest, hrest => by
    have hopen : (rest.head? == some '(') = false := by
      cases hr : rest.head? with
      | none => rfl
      | some c => simpa using (hrest c hr).2
    rw [written, C.scan_name h fun c hc => (hrest c hc).1, hopen]
    rfl
  | .parens e, h, rest, hrest => by
    rw [written, List.cons_append, List.append_assoc, C.scan_open, List.cons_append, List.nil_append,
      e.scan_written h (C.breaks_close rest), C.scan_close]
    simp [lexemes]
  | .negation _ e, h, rest, hrest => by
    rw [written, List.cons_append, List.cons_append, List.append_assoc, C.scan_open, scan_minus e h,
      List.cons_append, List.nil_append, e.scan_written h (C.breaks_close rest), C.scan_close]
    simp [lexemes]
  | .mulDiv op l r, h, rest, hrest | .addSub op l r, h, rest, hrest
  | .compare op l r, h, rest, hrest => by
    rw [written, List.append_assoc, List.cons_append, List.append_assoc, List.cons_append,
      l.scan_written h.1 (C.breaks_blank _), C.scan_operator, r.scan_written h.2 hrest]
    simp [lexemes]
  | .concatenation l r, h, rest, hrest => by
    have hname : C.scan (joinName ++ '(' :: (l.written ++ ',' :: (r.written ++ ')' :: rest))) =
        .word joinName true :: C.scan ('(' :: (l.written ++ ',' :: (r.written ++ ')' :: rest))) :=
      C.scan_word (by decide) (List.all_eq_true.1 (by decide)) (by simp; decide)
    rw [C.scan_open, l.scan_written h.1 (C.breaks_comma _), C.scan_comma,
      r.scan_written h.2 (C.breaks_close rest), C.scan_close] at hname
    simpa [written, lexemes] using hname
  | .call f es, h, rest, hrest => by
    have hopen : ∀ c ∈ ('(' :: (writtenAll es ++ ')' :: rest)).head?, C.isWordChar c = false := by
      simp
      decide
    have hname := C.scan_name h.1 hopen
    rw [C.scan_open, scan_writtenAll es h.2 rest] at hname
    simpa [written, lexemes] using hname

theorem scan_writtenAll : (es : List Expr) → SpelledAll es → (rest : List Char) →
    C.scan (writtenAll es ++ ')' :: rest) = lexemesAll es ++ .mark [')'] :: C.scan rest
  | [], _, rest => C.scan_close rest
  | [e], h, rest => by
    rw [writtenAll, e.scan_written h.1 (C.breaks_close rest), C.scan_close, lexemesAll]
  | e :: e' :: es, h, rest => by
    rw [writtenAll, List.append_assoc, List.cons_append, e.scan_written h.1 (C.breaks_comma _),
      C.scan_comma, scan_writtenAll (e' :: es) h.2 rest, lexemesAll, List.append_assoc,
      List.cons_append]

end

end Expr

end Throbac
