import Throbac.Proofs.Program.Likeness
import Throbac.Proofs.Program.Texts

/-!
# How generated texts are laid out

The braces of a generated text are balanced, every line is indented by four blanks for each brace that
is open before it, and no line break or indentation stands in a string constant. What is known of the
lines of a part is kept when the part is put into a block.
-/
namespace Throbac

namespace CText

/-- How many braces are open behind a character; there is no such number if it closes one and none is
open. -/
def brace (d : Nat) (c : Char) : Option Nat :=
  if c = '\x7b' then some (d + 1)
  else if c = '\x7d' then if d = 0 then none else some (d - 1)
  else some d

/-- How many braces are open behind a text that starts with so many. -/
def braces (d : Nat) (cs : List Char) : Option Nat := cs.foldlM brace d

/-- Whether a place of a text is in a string constant, and then whether a backslash stands before it. -/
inductive Place
  | outside
  | inside
  | escaped
  deriving DecidableEq

namespace Place

def next : Place → Char → Place
  | outside, '"' => inside
  | outside, _ => outside
  | inside, '"' => outside
  | inside, '\\' => escaped
  | inside, _ => inside
  | escaped, _ => inside

def behind (p : Place) (cs : List Char) : Place := cs.foldl next p

end Place

/-- The string constants of a text with their quotes, one after the other. -/
def quotations : Place → List Char → List Char
  | _, [] => []
  | p, c :: cs =>
    if p = .outside ∧ p.next c = .outside then quotations .outside cs
    else c :: quotations (p.next c) cs

/-- A line that is not blank starts with four blanks for each open brace; a line that begins with a
closing brace, for one brace less. -/
def Aligned (open_ : Nat) (l : List Char) : Prop :=
  l.dropWhile Text.isBlank ≠ [] →
    l.takeWhile Text.isBlank =
      List.replicate (4 * (open_ - if (l.dropWhile Text.isBlank).head? = some '\x7d' then 1 else 0)) ' '

/-- A text that is laid out. -/
structure LaidOut (c : List Char) : Prop where
  /-- The braces are balanced. -/
  balanced : braces 0 c = some 0
  /-- Each line is indented by the number of braces that are open before it. -/
  aligned : ∀ before l after, Text.split '\n' c = before ++ l :: after →
    ∃ d, braces 0 before.flatten = some d ∧ Aligned d l
  /-- No line has blanks at its end. -/
  trimmed : ∀ l ∈ Text.split '\n' c, ∀ b ∈ l.getLast?, Text.isBlank b = false
  /-- No line breaks off a string constant. -/
  apart : ∀ u v, c = u ++ '\n' :: v → Place.outside.behind u = .outside
  /-- Without line breaks and indentation the text has the same string constants. -/
  kept : quotations .outside ((Text.split '\n' c).flatMap (List.dropWhile Text.isBlank)) =
    quotations .outside c

/-! Braces and string constants of texts put together. -/

variable {d e : Nat} {u v cs : List Char}

theorem braces_append (d : Nat) (u v : List Char) :
    braces d (u ++ v) = (braces d u).bind (braces · v) := List.foldlM_append

theorem braces_plain (hopen : '\x7b' ∉ cs) (hclose : '\x7d' ∉ cs) (d : Nat) : braces d cs = some d := by
  induction cs with
  | nil => rfl
  | cons c cs ih =>
    rw [List.mem_cons, not_or] at hopen hclose
    have hc : brace d c = some d := by rw [brace, if_neg (Ne.symm hopen.1), if_neg (Ne.symm hclose.1)]
    rw [braces, List.foldlM_cons, hc]
    exact ih hopen.2 hclose.2

theorem braces_succ (h : braces d cs = some e) : braces (d + 1) cs = some (e + 1) := by
  induction cs generalizing d with
  | nil => exact congrArg (Option.map (· + 1)) h
  | cons c cs ih =>
    rw [braces, List.foldlM_cons] at h ⊢
    obtain ⟨d', hd, hrest⟩ := Option.bind_eq_some_iff.1 h
    have hstep : brace (d + 1) c = some (d' + 1) := by
      unfold brace at hd ⊢
      split at hd
      · next hc =>
        rw [if_pos hc, ← Option.some.inj hd]
      · next hc =>
        rw [if_neg hc]
        split at hd
        · next hc =>
          rw [if_pos hc, if_neg (Nat.succ_ne_zero d)]
          split at hd
          · cases hd
          · rw [← Option.some.inj hd]
            congr 1
            omega
        · next hc => rw [if_neg hc, ← Option.some.inj hd]
    rw [hstep]
    exact ih hrest

namespace Place

theorem behind_append (p : Place) (u v : List Char) : p.behind (u ++ v) = (p.behind u).behind v :=
  List.foldl_append

theorem next_outside {c : Char} (h : c ≠ '"') : next .outside c = .outside := by
  unfold next
  split <;> simp_all

theorem behind_of_not_mem (h : '"' ∉ cs) : outside.behind cs = .outside := by
  induction cs with
  | nil => rfl
  | cons c cs ih =>
    rw [List.mem_cons, not_or] at h
    rw [behind, List.foldl_cons, next_outside (Ne.symm h.1)]
    exact ih h.2

end Place

theorem quotations_append (p : Place) (u v : List Char) :
    quotations p (u ++ v) = quotations p u ++ quotations (p.behind u) v := by
  induction u generalizing p with
  | nil => rfl
  | cons c u ih =>
    rw [List.cons_append, quotations, quotations]
    split
    · next h =>
      rw [ih, Place.behind, Place.behind, List.foldl_cons, h.2]
    · rw [ih]
      rfl

theorem quotations_of_not_mem (h : '"' ∉ cs) : quotations .outside cs = [] := by
  induction cs with
  | nil => rfl
  | cons c cs ih =>
    rw [List.mem_cons, not_or] at h
    rw [quotations, if_pos ⟨rfl, Place.next_outside (Ne.symm h.1)⟩, ih h.2]

/-! Lines that are laid out one after the other. -/

/-- Lines of which each is aligned at the braces open before it and ends outside of string constants. -/
inductive Laid : Nat → List (List Char) → Nat → Prop
  | nil {d : Nat} : Laid d [] d
  | cons {d d' e : Nat} {l : List Char} {ls : List (List Char)} (haligned : Aligned d l)
    (hclosed : Place.outside.behind l = .outside) (hbraces : braces d l = some d') (h : Laid d' ls e) :
    Laid d (l :: ls) e

variable {f : Nat} {l : List Char} {ls ms : List (List Char)}

theorem Laid.append (h : Laid d ls e) (h' : Laid e ms f) : Laid d (ls ++ ms) f := by
  induction h with
  | nil => exact h'
  | cons haligned hclosed hbraces _ ih => exact .cons haligned hclosed hbraces (ih h')

theorem Laid.split {before after : List (List Char)} (h : Laid d (before ++ l :: after) e) :
    ∃ d', braces d before.flatten = some d' ∧ Aligned d' l := by
  induction before generalizing d with
  | nil =>
    cases h with
    | cons haligned => exact ⟨d, rfl, haligned⟩
  | cons m before ih =>
    cases h with
    | cons _ _ hbraces h =>
      obtain ⟨d', hd, haligned⟩ := ih h
      refine ⟨d', ?_, haligned⟩
      rw [List.flatten_cons, braces_append, hbraces]
      exact hd

theorem Laid.closed (h : Laid d ls e) : ∀ l ∈ ls, Place.outside.behind l = .outside := by
  induction h with
  | nil => simp
  | cons _ hclosed _ _ ih => exact List.forall_mem_cons.2 ⟨hclosed, ih⟩

theorem Laid.braces_flatten (h : Laid d ls e) : braces d ls.flatten = some e := by
  induction h with
  | nil => rfl
  | cons _ _ hbraces _ ih =>
    rw [List.flatten_cons, braces_append, hbraces]
    exact ih

theorem not_mem_blanks {c : Char} (hc : Text.isBlank c = false) (l : List Char) :
    c ∉ l.takeWhile Text.isBlank := by
  intro h
  exact absurd (List.mem_takeWhile_imp h) (by simp [hc])

theorem pos_of_closing (h : braces d l = some e) (hl : (l.dropWhile Text.isBlank).head? = some '\x7d') :
    0 < d := by
  rw [← List.takeWhile_append_dropWhile (p := Text.isBlank) (l := l), braces_append,
    braces_plain (not_mem_blanks (by decide) l) (not_mem_blanks (by decide) l)] at h
  obtain ⟨cs, hcs⟩ : ∃ cs, l.dropWhile Text.isBlank = '\x7d' :: cs := by
    cases hdrop : l.dropWhile Text.isBlank with
    | nil => simp [hdrop] at hl
    | cons c cs =>
      rw [hdrop] at hl
      exact ⟨cs, by rw [Option.some.inj hl]⟩
  rcases Nat.eq_zero_or_pos d with rfl | hd
  · rw [hcs] at h
    cases h
  · exact hd

theorem aligned_indented (h : Aligned d l) (hbraces : braces d l = some e) : Aligned (d + 1) (indented l) := by
  unfold indented
  split
  · exact fun hne => absurd rfl hne
  · have hblank : Text.isBlank ' ' = true := by decide
    intro hne
    simp only [List.dropWhile_cons, List.takeWhile_cons, hblank, if_true] at hne ⊢
    rw [h hne]
    split
    · next hclosing =>
      have hpos := pos_of_closing hbraces hclosing
      rw [show 4 * (d + 1 - 1) = 4 * (d - 1) + 4 by omega]
      rfl
    · rw [show 4 * (d + 1 - 0) = 4 * (d - 0) + 4 by omega]
      rfl

theorem Laid.indented (h : Laid d ls e) : Laid (d + 1) (ls.map CText.indented) (e + 1) := by
  induction h with
  | nil => exact .nil
  | @cons d d' e l ls haligned hclosed hbraces _ ih =>
    refine .cons (aligned_indented haligned hbraces) ?_ ?_ ih
    · unfold CText.indented
      split
      · rfl
      · exact hclosed
    · unfold CText.indented
      split
      · next hnil =>
        subst hnil
        cases hbraces
        rfl
      · exact braces_succ hbraces

theorem laid_inner (h : Laid d ls d) : Laid (d + 1) (inner ls) (d + 1) := by
  unfold inner
  split
  · exact .cons (fun hne => absurd rfl hne) rfl rfl .nil
  · exact h.indented

/-! The lines of statements. -/

/-- A text without braces that ends outside of string constants. -/
structure Plain (w : List Char) : Prop where
  opening : '\x7b' ∉ w
  closing : '\x7d' ∉ w
  closed : Place.outside.behind w = .outside

instance (w : List Char) : Decidable (Plain w) :=
  decidable_of_iff ('\x7b' ∉ w ∧ '\x7d' ∉ w ∧ Place.outside.behind w = .outside)
    ⟨fun h => ⟨h.1, h.2.1, h.2.2⟩, fun h => ⟨h.opening, h.closing, h.closed⟩⟩

theorem Plain.append (h : Plain u) (h' : Plain v) : Plain (u ++ v) := by
  refine ⟨by simp [h.opening, h'.opening], by simp [h.closing, h'.closing], ?_⟩
  rw [Place.behind_append, h.closed, h'.closed]

def StartsAt (l : List Char) : Prop := ∀ c ∈ l.head?, Text.isBlank c = false

theorem aligned_of_startsAt (h : StartsAt l) : Aligned 0 l := by
  intro hne
  rw [Nat.zero_sub, Nat.mul_zero, List.replicate_zero]
  cases l with
  | nil => rfl
  | cons c cs => rw [List.takeWhile_cons_of_neg (by simp [h c rfl])]

theorem laid_line (h : Plain l) (hstart : StartsAt l) : Laid 0 [l] 0 :=
  .cons (aligned_of_startsAt hstart) h.closed (braces_plain h.opening h.closing 0) .nil

theorem laid_opening {head : List Char} (h : Plain head) (hstart : StartsAt (head ++ ['\x7b'])) :
    Laid 0 [head ++ ['\x7b']] 1 := by
  refine .cons (aligned_of_startsAt hstart) ?_ ?_ .nil
  · rw [Place.behind_append, h.closed]
    rfl
  · rw [braces_append, braces_plain h.opening h.closing]
    rfl

theorem laid_closing {rest : List Char} (h : Plain rest) : Laid 1 ['\x7d' :: rest] 0 := by
  have hbraces : braces 1 ('\x7d' :: rest) = some 0 := braces_plain h.opening h.closing 0
  exact .cons (fun _ => rfl) h.closed hbraces .nil

theorem laid_else {rest : List Char} (h : Plain rest) : Laid 1 ['\x7d' :: (rest ++ ['\x7b'])] 1 := by
  have hclosed : Place.outside.behind (rest ++ ['\x7b']) = .outside := by
    rw [Place.behind_append, h.closed]
    rfl
  have hbraces : braces 0 (rest ++ ['\x7b']) = some 1 := by
    rw [braces_append, braces_plain h.opening h.closing]
    rfl
  exact .cons (fun _ => rfl) hclosed hbraces .nil

theorem laid_braced {head : List Char} (h : Plain head) (hstart : StartsAt (head ++ ['\x7b']))
    (hls : Laid 0 ls 0) : Laid 0 (braced head ls) 0 :=
  (laid_opening h hstart).append ((laid_inner hls).append (laid_closing (by decide)))

end CText

open CText

/-! Expressions have no braces, and they close their string constants. -/

theorem CText.Place.behind_escaped {cs : List Char} (h : ∀ c ∈ cs, c.isUpper = true ∨ c = '.' ∨ c = '+') :
    Place.inside.behind (cs.flatMap fun c => if c = '+' then ['\\', 'n'] else [c]) = .inside := by
  induction cs with
  | nil => rfl
  | cons c cs ih =>
    obtain ⟨hc, hcs⟩ := List.forall_mem_cons.1 h
    rw [List.flatMap_cons, Place.behind_append]
    split
    · exact ih hcs
    · next hplus =>
      have hplain := ordinary_of_isText (hc.imp_right fun hc => hc.resolve_right hplus)
      have hnext : Place.inside.next c = .inside := by
        unfold Place.next
        split <;> simp_all
      rw [show Place.inside.behind [c] = .inside from hnext]
      exact ih hcs

namespace Expr

theorem closed_name {x : String} (h : IsName x) : Place.outside.behind x.toList = .outside :=
  Place.behind_of_not_mem fun hquote => absurd (h.2 _ hquote) (by decide)

theorem closed_mark (op : C.Operator) : Place.outside.behind op.mark = .outside := by cases op <;> rfl

mutual

theorem closed_written : (e : Expr) → e.Spelled → Place.outside.behind e.written = .outside
  | .number n, _ => by
    obtain ⟨d, w, hw, hdigit⟩ := C.digits_cons n.value
    rw [written, hw]
    exact Place.behind_of_not_mem fun hquote => absurd (hdigit _ hquote) (by decide)
  | .string s, h => by
    have hinside := Place.behind_escaped h
    show Place.inside.behind (escaped s ++ ['"']) = .outside
    rw [Place.behind_append, escaped, hinside]
    rfl
  | .bool b, _ => by cases b <;> rfl
  | .name id, h => closed_name h
  | .parens e, h | .negation _ e, h => by
    show Place.outside.behind (e.written ++ [')']) = .outside
    rw [Place.behind_append, closed_written e h]
    rfl
  | .mulDiv op l r, h | .addSub op l r, h | .compare op l r, h => by
    rw [written, Place.behind_append, closed_written l h.1]
    show Place.outside.behind (op.operator.mark ++ ' ' :: r.written) = .outside
    rw [Place.behind_append, closed_mark]
    exact closed_written r h.2
  | .concatenation l r, h => by
    rw [written, Place.behind_append]
    show Place.outside.behind (l.written ++ ',' :: (r.written ++ [')'])) = .outside
    rw [Place.behind_append, closed_written l h.1]
    show Place.outside.behind (r.written ++ [')']) = .outside
    rw [Place.behind_append, closed_written r h.2]
    rfl
  | .call f es, h => by
    rw [written, Place.behind_append, closed_name h.1]
    show Place.outside.behind (writtenAll es ++ [')']) = .outside
    rw [Place.behind_append, closed_writtenAll es h.2]
    rfl

theorem closed_writtenAll : (es : List Expr) → SpelledAll es →
    Place.outside.behind (writtenAll es) = .outside
  | [], _ => rfl
  | [e], h => closed_written e h.1
  | e :: e' :: es, h => by
    rw [writtenAll, Place.behind_append, closed_written e h.1]
    exact closed_writtenAll (e' :: es) h.2

end

theorem plain_written {e : Expr} (h : e.Spelled) : CText.Plain e.written :=
  ⟨e.not_mem_written (by decide) h, e.not_mem_written (by decide) h, e.closed_written h⟩

end Expr

theorem startsAt_name {x : String} (h : IsName x) (rest : List Char) : StartsAt (x.toList ++ rest) := by
  obtain ⟨c, w, hw⟩ := List.exists_cons_of_ne_nil h.1
  have hc : c.isLower = true := h.2 c (by rw [hw]; exact List.mem_cons_self)
  rw [hw]
  rintro _ ⟨⟩
  exact C.isBlank_of_isWordChar (C.isWordChar_of_isLower hc)

mutual

theorem Statement.laid_written : (s : Statement) → (∀ e ∈ s.exprs, e.Spelled) → Laid 0 s.written 0
  | .assignment x e, h => by
    rw [exprs] at h
    have hx := Expr.plain_written (h (.name x) (by simp))
    have he := Expr.plain_written (h e (by simp))
    rw [written]
    exact laid_line (.append hx (.append (by decide) (.append he (by decide)))) (startsAt_name (h (.name x) (by simp)) _)
  | .loop e ss, h => by
    rw [exprs] at h
    have he := Expr.plain_written (h e (by simp))
    rw [written]
    exact laid_braced (.append (by decide) (.append he (by decide))) (by simp [StartsAt, Text.isBlank])
      (Statement.laid_writtenAll ss fun d hd => h d (by simp [hd]))
  | .branch e ss none, h => by
    rw [exprs] at h
    have he := Expr.plain_written (h e (by simp))
    rw [written]
    exact laid_braced (.append (by decide) (.append he (by decide))) (by simp [StartsAt, Text.isBlank])
      (Statement.laid_writtenAll ss fun d hd => h d (by simp [hd]))
  | .branch e ss (some ts), h => by
    rw [exprs] at h
    have he := Expr.plain_written (h e (by simp))
    have hss := Statement.laid_writtenAll ss fun d hd => h d (by simp [hd])
    have hts := Statement.laid_writtenAll ts fun d hd => h d (by simp [hd])
    have hopening := laid_opening (.append (u := ['i', 'f', ' ', '(']) (by decide) (.append he (v := [')', ' ']) (by decide)))
      (by simp [StartsAt, Text.isBlank])
    rw [List.append_assoc, List.append_assoc] at hopening
    rw [written]
    exact hopening.append ((laid_inner hss).append ((laid_else (by decide)).append ((laid_inner hts).append
      (laid_closing (by decide)))))
  | .printNumber e, h | .printString e, h | .printBool e, h | .giveBack (some e), h => by
    rw [exprs] at h
    have he := Expr.plain_written (h e (by simp))
    rw [written]
    exact laid_line (.append (by decide) (.append he (by decide))) (by simp [StartsAt, Text.isBlank])
  | .giveBack none, h => by
    rw [written]
    exact laid_line (by decide) (by simp [StartsAt, Text.isBlank])
  | .call i, h => by
    rw [exprs] at h
    have hi := h i.expr (by simp)
    have hstart : StartsAt (i.expr.written ++ [';']) := by
      rw [Invocation.expr, Expr.written, List.append_assoc]
      exact startsAt_name hi.1 _
    rw [written]
    exact laid_line (.append (Expr.plain_written hi) (by decide)) hstart

theorem Statement.laid_writtenAll : (ss : List Statement) → (∀ e ∈ Statement.exprsAll ss, e.Spelled) →
    Laid 0 (Statement.writtenAll ss) 0
  | [], _ => by
    rw [writtenAll]
    exact .nil
  | s :: ss, h => by
    rw [exprsAll] at h
    rw [writtenAll]
    exact (s.laid_written fun d hd => h d (by simp [hd])).append
      (Statement.laid_writtenAll ss fun d hd => h d (by simp [hd]))

end

/-! The lines of programs. -/

theorem ValueType.plain_toC (t : ValueType) : CText.Plain t.toC.toList ∧
    ∀ rest, StartsAt (t.toC.toList ++ rest) := by
  cases t with
  | numerus => exact ⟨by decide, fun rest => by simp [toC, StartsAt, Text.isBlank]⟩
  | locutio => exact ⟨by decide, fun rest => by simp [toC, StartsAt, Text.isBlank]⟩
  | veritas => exact ⟨by decide, fun rest => by simp [toC, StartsAt, Text.isBlank]⟩

theorem NameDef.plain_toC {d : NameDef} (h : d.expr.Spelled) : CText.Plain d.toC.toList := by
  rw [toC, String.toList_append, String.toList_append]
  exact .append (.append d.type.plain_toC.1 (by decide)) (Expr.plain_written h)

theorem NameDef.laid_declaration {d : NameDef} (h : d.expr.Spelled) : Laid 0 [d.declaration.toList] 0 := by
  have hstart : StartsAt d.declaration.toList := by
    rw [declaration, toC, String.toList_append, String.toList_append, String.toList_append,
      List.append_assoc, List.append_assoc]
    exact d.type.plain_toC.2 _
  refine laid_line ?_ hstart
  rw [declaration, String.toList_append]
  exact .append (NameDef.plain_toC h) (by decide)

theorem ProgramBody.laid_declared {ds : List NameDef} (h : ∀ e ∈ ds.map NameDef.expr, e.Spelled) :
    Laid 0 (declaredLines ds) 0 := by
  unfold declaredLines
  split
  · exact laid_line (by decide) (by simp [StartsAt])
  · next hne =>
    clear hne
    induction ds with
    | nil => exact .nil
    | cons d ds ih =>
      rw [List.map_cons, List.forall_mem_cons] at h
      exact (NameDef.laid_declaration h.1).append (ih h.2)

theorem ProgramBody.laid_written {b : ProgramBody} (h : ∀ e ∈ b.exprs, e.Spelled) {head : List Char}
    (hhead : CText.Plain head) (hstart : StartsAt (head ++ ['\x7b'])) : Laid 0 (b.written head) 0 := by
  have hdeclared : Laid 0 (declaredLines b.declared) 0 := laid_declared fun e he =>
    h e (List.mem_append_left _ he)
  have hblock := Statement.laid_writtenAll b.block fun e he => h e (List.mem_append_right _ he)
  exact laid_braced hhead hstart
    (hdeclared.append (laid_braced (by decide) (by simp [StartsAt, Text.isBlank]) hblock))

theorem FuncDef.plain_parameterText {ds : List NameDef} (h : ∀ e ∈ ds.map NameDef.expr, e.Spelled) :
    CText.Plain (parameterText ds) := by
  induction ds with
  | nil => decide
  | cons d ds ih =>
    rw [List.map_cons, List.forall_mem_cons] at h
    cases ds with
    | nil => exact NameDef.plain_toC h.1
    | cons d' ds => exact .append (.append (NameDef.plain_toC h.1) (by decide)) (ih h.2)

theorem FuncDef.laid_written {f : FuncDef} (h : ∀ e ∈ f.exprs, e.Spelled) : Laid 0 f.written 0 := by
  have hname := Expr.plain_written (h (.name f.name) List.mem_cons_self)
  have hparams : CText.Plain (parameterText f.parameters) := plain_parameterText fun e he =>
    h e (List.mem_cons_of_mem _ (List.mem_append_left _ he))
  have hresult : CText.Plain (resultText f.result) ∧ ∀ rest, StartsAt (resultText f.result ++ rest) := by
    cases f.result with
    | none => exact ⟨by decide, fun rest => by simp [resultText, StartsAt, Text.isBlank]⟩
    | some t => exact t.plain_toC
  refine ProgramBody.laid_written (fun e he => h e (by simp [exprs, he])) ?_ ?_
  · rw [toList_head]
    exact .append (.append hresult.1 (.append (u := [' ']) (by decide)
      (.append hname (.append (u := ['(']) (by decide) (.append hparams (by decide)))))) (by decide)
  · rw [toList_head, List.append_assoc, List.append_assoc]
    exact hresult.2 _

namespace CText

theorem apart_of_closed {ls : List (List Char)} (hnewline : ∀ l ∈ ls, '\n' ∉ l)
    (hclosed : ∀ l ∈ ls, Place.outside.behind l = .outside) {u v : List Char}
    (h : Text.join ['\n'] ls = u ++ '\n' :: v) : Place.outside.behind u = .outside := by
  induction ls generalizing u with
  | nil =>
    have hlength := congrArg List.length h
    simp [Text.join] at hlength
  | cons l ls ih =>
    obtain ⟨hl, hls⟩ := List.forall_mem_cons.1 hnewline
    obtain ⟨hc, hcs⟩ := List.forall_mem_cons.1 hclosed
    cases ls with
    | nil =>
      refine absurd ?_ hl
      rw [show l = u ++ '\n' :: v from h]
      simp
    | cons m ms =>
      have hjoin : l ++ '\n' :: Text.join ['\n'] (m :: ms) = u ++ '\n' :: v := by
        rw [← h]
        simp [Text.join]
      rcases List.append_eq_append_iff.1 hjoin with ⟨w, rfl, hw⟩ | ⟨w, rfl, hw⟩
      · cases w with
        | nil => rw [List.append_nil]; exact hc
        | cons c w =>
          obtain ⟨rfl, hrest⟩ := List.cons.inj hw
          rw [Place.behind_append, hc]
          show Place.outside.behind w = .outside
          exact ih hls hcs hrest
      · cases w with
        | nil =>
          rw [List.append_nil] at hc
          exact hc
        | cons c w =>
          obtain ⟨rfl, _⟩ := List.cons.inj hw
          exact absurd (by simp) hl

theorem unindented (l : List Char) :
    quotations .outside (l.dropWhile Text.isBlank) = quotations .outside l ∧
      Place.outside.behind (l.dropWhile Text.isBlank) = Place.outside.behind l := by
  have hblanks := not_mem_blanks (c := '"') (by decide) l
  have hsplit := List.takeWhile_append_dropWhile (p := Text.isBlank) (l := l)
  constructor
  · conv => rhs; rw [← hsplit, quotations_append, quotations_of_not_mem hblanks, Place.behind_of_not_mem hblanks]
    rfl
  · conv => rhs; rw [← hsplit, Place.behind_append, Place.behind_of_not_mem hblanks]

theorem quotations_join {ls : List (List Char)} (hclosed : ∀ l ∈ ls, Place.outside.behind l = .outside) :
    quotations .outside (ls.flatMap (List.dropWhile Text.isBlank)) =
      quotations .outside (Text.join ['\n'] ls) := by
  induction ls with
  | nil => rfl
  | cons l ls ih =>
    obtain ⟨hc, hcs⟩ := List.forall_mem_cons.1 hclosed
    obtain ⟨hquotations, hbehind⟩ := unindented l
    rw [List.flatMap_cons, quotations_append, hquotations, hbehind, hc, ih hcs]
    cases ls with
    | nil => exact List.append_nil _
    | cons m ms =>
      have hjoin : Text.join ['\n'] (l :: m :: ms) = l ++ '\n' :: Text.join ['\n'] (m :: ms) := by simp [Text.join]
      rw [hjoin, quotations_append, hc]
      rfl

theorem braces_join (d : Nat) (ls : List (List Char)) : braces d (Text.join ['\n'] ls) = braces d ls.flatten := by
  induction ls generalizing d with
  | nil => rfl
  | cons l ls ih =>
    cases ls with
    | nil => rw [List.flatten_cons, List.flatten_nil, List.append_nil]; rfl
    | cons m ms =>
      have hjoin : Text.join ['\n'] (l :: m :: ms) = l ++ '\n' :: Text.join ['\n'] (m :: ms) := by simp [Text.join]
      rw [hjoin, List.flatten_cons, braces_append, braces_append]
      exact congrArg _ (funext ih)

theorem laidOut_glue {ls : List (List Char)} (hne : ls ≠ []) (htidy : ∀ l ∈ ls, Tidy l) (h : Laid 0 ls 0) :
    LaidOut (Text.glue ls).toList := by
  have hnewline : ∀ l ∈ ls, '\n' ∉ l := fun l hl => (htidy l hl).1
  have hsplit : Text.split '\n' (Text.glue ls).toList = ls := by
    rw [Text.glue, String.toList_ofList, Text.split_join hne hnewline]
  refine ⟨?_, fun before l after hlines => ?_, fun l hl => ?_, fun u v huv => ?_, ?_⟩
  · rw [Text.glue, String.toList_ofList, braces_join, h.braces_flatten]
  · rw [hsplit] at hlines
    exact (hlines ▸ h).split
  · rw [hsplit] at hl
    exact (htidy l hl).2
  · rw [Text.glue, String.toList_ofList] at huv
    exact apart_of_closed hnewline h.closed huv
  · rw [hsplit, quotations_join h.closed, Text.glue, String.toList_ofList]

end CText

theorem Phrase.laid_written {p : Phrase} {k : NodeKind}
    (hk : k ∈ [NodeKind.funcDef, .main, .body, .block, .statement]) (hp : (p.rule : Int) = k.rule)
    (h : ∀ e ∈ p.exprs, e.Spelled) : Laid 0 p.written 0 ∧ ∀ l ∈ p.written, Tidy l := by
  cases p with
  | statement s => exact ⟨s.laid_written h, s.tidy_written h⟩
  | block ss =>
    exact ⟨laid_braced (by decide) (by simp [StartsAt, Text.isBlank]) (Statement.laid_writtenAll ss h),
      tidy_braced (by simp) (Statement.tidy_writtenAll ss h)⟩
  | body b =>
    exact ⟨ProgramBody.laid_written h (by decide) (by simp [StartsAt, Text.isBlank]),
      ProgramBody.tidy_written h (by simp)⟩
  | main b =>
    exact ⟨ProgramBody.laid_written h (by decide) (by simp [StartsAt, Text.isBlank]),
      ProgramBody.tidy_written h (by decide)⟩
  | funcDef f => exact ⟨FuncDef.laid_written h, f.tidy_written h⟩
  | _ =>
    simp only [List.mem_cons, List.not_mem_nil, or_false] at hk
    rcases hk with rfl | rfl | rfl | rfl | rfl <;> cases hp

open ParseTree in
/-- The text of every statement, block, body, main part and function, nested to any depth, is laid
out. Such a text is there unless a numeral is too long. -/
theorem treeToC_laidOut {t : ParseTree} (h : Derived t) (hw : t.Worded) {k : NodeKind}
    (hk : k ∈ [NodeKind.funcDef, .main, .body, .block, .statement]) (hr : t.rule? = some k.rule)
    (hshort : ∀ m ∈ t.numerals, m.Short) : ∃ c, treeToC t = .ok c ∧ LaidOut c.toList := by
  obtain ⟨p, hp, htree, hsound, hnumerals⟩ := exists_phrase h hw hr
  obtain ⟨c, hc⟩ : ∃ c, p.toC = .ok c := by
    rcases p.renders with ⟨hc, _⟩ | ⟨m, hm, hlong, _⟩
    · exact hc
    · exact absurd (hshort m (hnumerals ▸ hm)) hlong
  have hprintable := Phrase.printable hsound hc
  have hrule := p.rule?_tree
  rw [htree, rule?_bare, hr] at hrule
  obtain ⟨hlaid, htidy⟩ := Phrase.laid_written hk (Option.some.inj hrule).symm fun e he =>
    (hprintable e he).spelled
  refine ⟨Text.glue p.written, ?_, laidOut_glue p.written_ne_nil htidy hlaid⟩
  simp only [treeToC, hp]
  rw [Phrase.toC_eq hprintable]
  rfl

open ParseTree in
/-- A loop around a choice with an empty block. -/
theorem treeToC_laidOut_loop :
    ∃ c, treeToC (Statement.loop (.name "x") [.branch (.string "A") [] (some [.giveBack none])]).tree = .ok c ∧
      LaidOut c.toList := by
  have hword : ∀ y s, Derived (word y s) := fun _ _ => .leaf _
  have hliteral : ∀ n, Derived (literal n) := fun _ => .leaf _
  have hname : Derived (phrase .name [word 37 "x"]) := .node rfl (.token rfl .nil) rfl (by simp [hword])
  have htext : Derived (phrase .string [word 34 "^A^"]) := .node rfl (.token rfl .nil) rfl (by simp [hword])
  have hempty : Derived (phrase .block []) := .node rfl (.done .nil) rfl (by simp)
  have hback : Derived (phrase .giveBack [literal 16]) :=
    .node rfl (.skip (.token rfl .nil)) rfl (by simp [hliteral])
  have hblock : Derived (phrase .block [phrase .giveBack [literal 16]]) :=
    .node rfl (.round (.phrase rfl (.done .nil))) rfl (by simp [hback])
  have hbranch : Derived (phrase .branch [phrase .string [word 34 "^A^"], literal 11, literal 5,
      phrase .block [], literal 6, literal 12, literal 5, phrase .block [phrase .giveBack [literal 16]],
      literal 6]) :=
    .node rfl (.phrase rfl (.token rfl (.token rfl (.phrase rfl (.token rfl (.take (.token rfl (.token rfl
      (.phrase rfl (.token rfl .nil)))))))))) rfl (by simp [hliteral, htext, hempty, hblock])
  have hbranches : Derived (phrase .block [phrase .branch [phrase .string [word 34 "^A^"], literal 11, literal 5,
      phrase .block [], literal 6, literal 12, literal 5, phrase .block [phrase .giveBack [literal 16]],
      literal 6]]) :=
    .node rfl (.round (.phrase rfl (.done .nil))) rfl (by simp [hbranch])
  have hx : (word 37 "x").Worded := by
    refine worded_word.2 ⟨fun n hn _ hlt => ?_, fun h => ?_, fun h => ?_, fun h => ?_, fun h => ?_,
      fun _ => by decide, fun h => ?_⟩
    · omega
    all_goals cases h
  have ha : (word 34 "^A^").Worded := 
    (Expr.textual_tree (.string "A") rfl (show IsText "A" by decide)).2.1.part _ (by simp)
  refine treeToC_laidOut (k := .statement) ?_ ?_ (by simp) ?_ ?_
  all_goals simp only [Statement.tree, Statement.trees, Expr.tree]
  · exact .node rfl (.phrase rfl (.token rfl (.token rfl (.phrase rfl (.token rfl .nil))))) rfl
      (by simp [hliteral, hname, hbranches])
  · simp [worded_phrase, worded_literal, hx, ha]
  · rfl
  · simp [numerals_phrase, numerals_word, literal]

end Throbac
