import Throbac.Text.Lines

/-!
# The lexemes of a C text

A C text falls into words, numbers, string constants and marks, each taken as long as possible.
Blanks part lexemes and are dropped, and nothing runs over the end of a line. Of a word it is also
noted whether a parenthesis follows at once, which C itself does not look at.
-/
namespace Throbac.C

inductive Lexeme
  /-- A word, and whether a parenthesis follows without a blank. -/
  | word (s : List Char) (opens : Bool)
  | number (s : List Char)
  /-- A string constant by what stands between its quotes. -/
  | string (s : List Char)
  | mark (s : List Char)
  deriving DecidableEq, Repr

def isLetter (c : Char) : Bool := c.isAlpha || c == '_'

def isWordChar (c : Char) : Bool := isLetter c || c.isDigit

/-- The marks of two characters. Those of three begin with one of them. -/
def pairs : List (Char × Char) := [
  ('-', '-'), ('-', '='), ('-', '>'), ('+', '+'), ('+', '='), ('*', '='), ('/', '='), ('/', '/'),
  ('/', '*'), ('%', '='), ('<', '<'), ('<', '='), ('>', '>'), ('>', '='), ('=', '='), ('!', '='),
  ('&', '&'), ('&', '='), ('|', '|'), ('|', '='), ('^', '='), ('#', '#')]

/-- What stands before the closing quote, and what is left behind it. -/
def untilQuote : List Char → Option (List Char × List Char)
  | [] => none
  | '"' :: cs => some ([], cs)
  | '\\' :: c :: cs => (untilQuote cs).map fun (s, rest) => ('\\' :: c :: s, rest)
  | c :: cs => (untilQuote cs).map fun (s, rest) => (c :: s, rest)

theorem length_untilQuote {cs s rest : List Char} (h : untilQuote cs = some (s, rest)) :
    rest.length < cs.length := by
  fun_induction untilQuote cs generalizing s rest with
  | case1 => simp at h
  | case2 cs => simp_all
  | case3 c cs ih | case4 c cs _ _ ih =>
    obtain ⟨⟨s', rest'⟩, h', heq⟩ := Option.map_eq_some_iff.1 h
    have hlt := ih h'
    simp only [Prod.mk.injEq] at heq
    simp only [List.length_cons, ← heq.2]
    omega

/-- A string constant behind its first quote, and what is left behind it. A quote that is not closed
is a mark. -/
def takeString (cs : List Char) : Lexeme × List Char :=
  match untilQuote cs with
  | some (s, rest) => (.string s, rest)
  | none => (.mark ['"'], cs)

/-- The mark that begins with a character, and what is left behind it. -/
def takeMark (c : Char) : List Char → Lexeme × List Char
  | [] => (.mark [c], [])
  | d :: cs => if (c, d) ∈ pairs then (.mark [c, d], cs) else (.mark [c], d :: cs)

/-- The lexeme that begins with a character, and what is left behind it. -/
def takeLexeme (c : Char) (cs : List Char) : Lexeme × List Char :=
  if isLetter c then
    (.word (c :: cs.takeWhile isWordChar) ((cs.dropWhile isWordChar).head? == some '('),
      cs.dropWhile isWordChar)
  else if c.isDigit then (.number (c :: cs.takeWhile isWordChar), cs.dropWhile isWordChar)
  else if c = '"' then takeString cs
  else takeMark c cs

theorem length_takeLexeme (c : Char) (cs : List Char) :
    (takeLexeme c cs).2.length ≤ cs.length := by
  have hdrop := (List.dropWhile_sublist isWordChar (l := cs)).length_le
  unfold takeLexeme
  split
  · exact hdrop
  split
  · exact hdrop
  split
  · unfold takeString
    split
    · next h => exact Nat.le_of_lt (length_untilQuote h)
    · exact Nat.le_refl _
  · cases cs with
    | nil => exact Nat.le_refl _
    | cons d cs =>
      rw [takeMark]
      split <;> simp

def scan : List Char → List Lexeme
  | [] => []
  | c :: cs =>
    if Text.isBlank c then scan cs
    else (takeLexeme c cs).1 :: scan (takeLexeme c cs).2
termination_by cs => cs.length
decreasing_by
  · simp
  · have := length_takeLexeme c cs
    simp only [List.length_cons]
    omega

def lexemes (cs : List Char) : List Lexeme := (Text.split '\n' cs).flatMap scan

/-- Behind a word or a number the text does not go on as one, and no parenthesis follows. -/
def Breaks (cs : List Char) : Prop := ∀ c ∈ cs.head?, isWordChar c = false ∧ c ≠ '('

theorem breaks_nil : Breaks [] := by simp [Breaks]

theorem breaks_cons {c : Char} {cs : List Char} (h : isWordChar c = false ∧ c ≠ '(') :
    Breaks (c :: cs) := by
  simpa [Breaks] using h

/-! One lexeme at a time. -/

theorem scan_nil : scan [] = [] := by rw [scan.eq_def]

theorem scan_blank {c : Char} (h : Text.isBlank c = true) (cs : List Char) :
    scan (c :: cs) = scan cs := by
  rw [scan.eq_def]
  exact if_pos h

theorem scan_lexeme {c : Char} (h : Text.isBlank c = false) (cs : List Char) :
    scan (c :: cs) = (takeLexeme c cs).1 :: scan (takeLexeme c cs).2 := by
  rw [scan.eq_def]
  exact if_neg (by simp [h])

theorem toNat_of_isDigit {c : Char} (h : c.isDigit = true) : 48 ≤ c.toNat ∧ c.toNat ≤ 57 := by
  simp only [Char.isDigit, Bool.and_eq_true, decide_eq_true_eq, ge_iff_le,
    UInt32.le_iff_toNat_le] at h
  exact h

theorem toNat_of_isLetter {c : Char} (h : isLetter c = true) : 65 ≤ c.toNat ∧ c.toNat ≤ 122 := by
  rcases Bool.or_eq_true_iff.1 h with h | h
  · rcases Bool.or_eq_true_iff.1 h with h | h
    · have hupper : 65 ≤ c.toNat ∧ c.toNat ≤ 90 := of_decide_eq_true h
      exact ⟨hupper.1, Nat.le_trans hupper.2 (by decide)⟩
    · obtain ⟨hl, hu⟩ := Bool.and_eq_true_iff.1 h
      exact ⟨Nat.le_trans (by decide) (UInt32.le_iff_toNat_le.1 (of_decide_eq_true hl)),
        of_decide_eq_true hu⟩
  · rw [beq_iff_eq.1 h]
    decide

theorem isBlank_of_isWordChar {c : Char} (h : isWordChar c = true) : Text.isBlank c = false := by
  have hn : 48 ≤ c.toNat ∧ c.toNat ≤ 122 := by
    rcases Bool.or_eq_true_iff.1 h with h | h
    · have := toNat_of_isLetter h
      omega
    · have := toNat_of_isDigit h
      omega
  simp only [Text.isBlank, Bool.or_eq_false_iff, Bool.and_eq_false_iff, decide_eq_false_iff_not,
    beq_eq_false_iff_ne]
  omega

theorem isLetter_of_isDigit {c : Char} (h : c.isDigit = true) : isLetter c = false := by
  cases hl : isLetter c with
  | false => rfl
  | true =>
    have := toNat_of_isDigit h
    have := toNat_of_isLetter hl
    omega

theorem takeWhile_append_break {p : Char → Bool} {w rest : List Char} (hw : ∀ c ∈ w, p c = true)
    (hrest : ∀ c ∈ rest.head?, p c = false) :
    (w ++ rest).takeWhile p = w ∧ (w ++ rest).dropWhile p = rest := by
  induction w with
  | nil =>
    cases rest with
    | nil => simp
    | cons c cs => simp_all
  | cons c w ih =>
    have := ih fun d hd => hw d (List.mem_cons_of_mem _ hd)
    simp [hw c, this]

theorem scan_word {c : Char} {w rest : List Char} (hc : isLetter c = true)
    (hw : ∀ d ∈ w, isWordChar d = true) (hrest : ∀ d ∈ rest.head?, isWordChar d = false) :
    scan (c :: w ++ rest) = .word (c :: w) (rest.head? == some '(') :: scan rest := by
  obtain ⟨htake, hdrop⟩ := takeWhile_append_break hw hrest
  have hblank := isBlank_of_isWordChar (c := c) (by simp [isWordChar, hc])
  rw [List.cons_append, scan_lexeme hblank, takeLexeme, if_pos hc, htake, hdrop]

theorem scan_number {c : Char} {w rest : List Char} (hc : c.isDigit = true)
    (hw : ∀ d ∈ w, isWordChar d = true) (hrest : ∀ d ∈ rest.head?, isWordChar d = false) :
    scan (c :: w ++ rest) = .number (c :: w) :: scan rest := by
  obtain ⟨htake, hdrop⟩ := takeWhile_append_break hw hrest
  have hblank := isBlank_of_isWordChar (c := c) (by simp [isWordChar, hc])
  rw [List.cons_append, scan_lexeme hblank, takeLexeme, if_neg (by simp [isLetter_of_isDigit hc]),
    if_pos hc, htake, hdrop]

theorem scan_string {s rest : List Char} (h : untilQuote (s ++ '"' :: rest) = some (s, rest)) :
    scan ('"' :: (s ++ '"' :: rest)) = .string s :: scan rest := by
  have hblank : Text.isBlank '"' = false := by decide
  have hletter : ¬ isLetter '"' = true := by decide
  have hdigit : ¬ Char.isDigit '"' = true := by decide
  rw [scan_lexeme hblank, takeLexeme, if_neg hletter, if_neg hdigit, if_pos rfl, takeString, h]

def isMark (c : Char) : Bool := !Text.isBlank c && !isLetter c && !c.isDigit && c != '"'

theorem scan_takeMark {c : Char} (hc : isMark c = true) (cs : List Char) :
    scan (c :: cs) = (takeMark c cs).1 :: scan (takeMark c cs).2 := by
  simp only [isMark, Bool.and_eq_true, Bool.not_eq_true', bne_iff_ne] at hc
  rw [scan_lexeme hc.1.1.1, takeLexeme, if_neg (by simp [hc]), if_neg (by simp [hc]), if_neg hc.2]

theorem scan_mark {c : Char} (hc : isMark c = true) {cs : List Char}
    (hcs : ∀ d ∈ cs.head?, (c, d) ∉ pairs) : scan (c :: cs) = .mark [c] :: scan cs := by
  rw [scan_takeMark hc]
  cases cs with
  | nil => rfl
  | cons d cs => rw [takeMark, if_neg (hcs d rfl)]

theorem scan_pair {c d : Char} (hc : isMark c = true) (h : (c, d) ∈ pairs) (cs : List Char) :
    scan (c :: d :: cs) = .mark [c, d] :: scan cs := by
  rw [scan_takeMark hc, takeMark, if_pos h]

theorem scan_lone {c : Char} (hc : isMark c = true) (h : ∀ p ∈ pairs, p.1 ≠ c) (cs : List Char) :
    scan (c :: cs) = .mark [c] :: scan cs :=
  scan_mark hc fun _ _ hp => h _ hp rfl

end Throbac.C
