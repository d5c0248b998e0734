import Throbac.Proofs.Lines
import Throbac.Proofs.Program.Image
import Throbac.Proofs.Stream.Sources

/-!
# What the words of a program stand for

A number lists the words of its digits between points, a text stands between carets, a name has small
letters only, and there are two truth values and three types. So every token of a program can be read.
-/
namespace Throbac

theorem CharClass.has_iff {rs : List (Char × Char)} {c : Char} :
    CharClass.has { ranges := rs } c = true ↔
      ∃ r ∈ rs, r.1.toNat ≤ c.toNat ∧ c.toNat ≤ r.2.toNat := by
  simp [CharClass.has]

namespace Pattern

variable {p : Pattern} {k : CharClass} {c : Char} {cs u : List Char}

theorem Matches.char_eq (h : Matches (char c) u) : u = [c] := by
  cases h with
  | @one _ d hd =>
    have hle : c.toNat ≤ d.toNat ∧ d.toNat ≤ c.toNat := by simpa [CharClass.has, CharClass.only] using hd
    rw [Char.toNat_inj.1 (Nat.le_antisymm hle.2 hle.1)]

theorem Matches.word_eq (h : Matches (word cs) u) : u = cs := by
  induction cs generalizing u with
  | nil =>
    cases h
    rfl
  | cons c cs ih =>
    cases h with
    | seq hc hcs => rw [hc.char_eq, ih hcs, List.singleton_append]

theorem Matches.exists_choice {ps : List Pattern} (h : Matches (choice p ps) u) :
    ∃ q ∈ p :: ps, Matches q u := by
  induction ps generalizing p with
  | nil => exact ⟨p, List.mem_cons_self, h⟩
  | cons q ps ih =>
    cases h with
    | left h => exact ⟨p, List.mem_cons_self, h⟩
    | right h =>
      obtain ⟨r, hr, hm⟩ := ih h
      exact ⟨r, List.mem_cons_of_mem _ hr, hm⟩

theorem Matches.exists_word {w : String} {ws : List String} (h : Matches (Lexicon.words w ws) u) :
    ∃ v ∈ w :: ws, u = v.toList := by
  obtain ⟨q, hq, hm⟩ := h.exists_choice
  rw [← List.map_cons (f := fun w : String => word w.toList)] at hq
  obtain ⟨v, hv, rfl⟩ := List.mem_map.1 hq
  exact ⟨v, hv, hm.word_eq⟩

theorem Matches.exists_rounds (h : Matches (star p) u) :
    ∃ us : List (List Char), (∀ v ∈ us, Matches p v) ∧ u = us.flatten := by
  generalize hq : star p = q at h
  induction h with
  | none => exact ⟨[], by simp, rfl⟩
  | more hu _ _ ih =>
    cases hq
    obtain ⟨us, hus, rfl⟩ := ih rfl
    exact ⟨_ :: us, List.forall_mem_cons.2 ⟨hu, hus⟩, rfl⟩
  | empty | one | seq | left | right | plus => cases hq

theorem Matches.star_one (h : Matches (star (Pattern.one k)) u) : ∀ c ∈ u, k.has c = true := by
  obtain ⟨us, hus, rfl⟩ := h.exists_rounds
  intro c hc
  obtain ⟨v, hv, hcv⟩ := List.mem_flatten.1 hc
  cases hus v hv with
  | one hk =>
    rw [List.mem_singleton.1 hcv]
    exact hk

end Pattern

namespace Numeral

theorem word_plain (d : Digit) : '.' ∉ d.word.toList ∧ d.word.toList ≠ [] := by
  revert d
  decide

theorem ofWord?_word (d : Digit) : Digit.ofWord? d.word = some d := by
  revert d
  decide

def spelling (ds : List Digit) : List Char := Text.join ['.'] (ds.map fun d => d.word.toList)

theorem mapM_ofWord? (ds : List Digit) : (ds.map Digit.word).mapM Digit.ofWord? = some ds := by
  induction ds with
  | nil => rfl
  | cons d ds ih => rw [List.map_cons, List.mapM_cons, ofWord?_word, ih]; rfl

theorem spelling_ends (d : Digit) (ds : List Digit) :
    (∀ c ∈ (spelling (d :: ds)).head?, c ≠ '.') ∧ ∀ c ∈ (spelling (d :: ds)).getLast?, c ≠ '.' := by
  have hmem : ∀ (e : Digit), ∀ c ∈ e.word.toList, c ≠ '.' := by
    rintro e c hc rfl
    exact (word_plain e).1 hc
  constructor
  · intro c hc
    rw [spelling, List.map_cons, Text.head?_join _ _ (word_plain d).2] at hc
    exact hmem d c (List.mem_of_mem_head? hc)
  · intro c hc
    have hwords : ∀ w ∈ (d :: ds).map fun d => d.word.toList, w ≠ [] := by
      intro w hw
      obtain ⟨e, _, rfl⟩ := List.mem_map.1 hw
      exact (word_plain e).2
    obtain ⟨w, hw, hlast⟩ := Text.getLast?_join ['.'] (by simp) hwords
    rw [spelling, hlast] at hc
    obtain ⟨e, _, rfl⟩ := List.mem_map.1 hw
    exact hmem e c (List.mem_of_getLast? hc)

theorem ofText?_spelling (d : Digit) (ds : List Digit) :
    ofText? (String.ofList ('.' :: (spelling (d :: ds) ++ ['.']))) = some ⟨d :: ds⟩ := by
  have hplain : ∀ w ∈ (d :: ds).map fun d => d.word.toList, '.' ∉ w := by
    intro w hw
    obtain ⟨e, _, rfl⟩ := List.mem_map.1 hw
    exact (word_plain e).1
  rw [ofText?, Text.stripChar_enclosed (spelling_ends d ds).1 (spelling_ends d ds).2,
    String.toList_ofList, spelling, Text.split_join (by simp) hplain, List.map_map]
  have hwords : ((d :: ds).map (String.ofList ∘ fun d => d.word.toList)) = (d :: ds).map Digit.word := by
    simp [String.ofList_toList]
  rw [hwords, mapM_ofWord?]
  rfl

theorem spelling_eq (d : Digit) (ds : List Digit) :
    spelling (d :: ds) ++ ['.'] = (d :: ds).flatMap fun d => d.word.toList ++ ['.'] := by
  induction ds generalizing d with
  | nil => simp [spelling, Text.join]
  | cons e ds ih =>
    have hnext : spelling (d :: e :: ds) = d.word.toList ++ ['.'] ++ spelling (e :: ds) := rfl
    rw [hnext, List.append_assoc, ih e, List.flatMap_cons (x := d)]

theorem text_mk (d : Digit) (ds : List Digit) :
    (Numeral.mk (d :: ds)).text = String.ofList ('.' :: (spelling (d :: ds) ++ ['.'])) := by
  rw [spelling_eq, ← String.toList_inj, String.toList_ofList, text]
  simp [String.toList_join, List.flatMap_def, Function.comp_def]

theorem ofText?_text {n : Numeral} (h : n.digits ≠ []) : ofText? n.text = some n := by
  obtain ⟨ds⟩ := n
  obtain ⟨d, ds, rfl⟩ := List.exists_cons_of_ne_nil h
  rw [text_mk]
  exact ofText?_spelling d ds

end Numeral

namespace Lexicon

open Pattern

variable {u : List Char}

theorem exists_digit (h : digit.Matches u) : ∃ d : Digit, u = d.word.toList := by
  obtain ⟨v, hv, rfl⟩ := h.exists_word
  simp only [List.mem_cons, List.not_mem_nil, or_false] at hv
  rcases hv with rfl | rfl | rfl | rfl | rfl | rfl | rfl | rfl | rfl | rfl
  exacts [⟨0, rfl⟩, ⟨1, rfl⟩, ⟨2, rfl⟩, ⟨3, rfl⟩, ⟨4, rfl⟩, ⟨5, rfl⟩, ⟨6, rfl⟩, ⟨7, rfl⟩, ⟨8, rfl⟩, ⟨9, rfl⟩]

theorem exists_digits {us : List (List Char)} (h : ∀ v ∈ us, (seq (char '.') digit).Matches v)
    (d : Digit) :
    ∃ ds : List Digit, d.word.toList ++ us.flatten = Numeral.spelling (d :: ds) := by
  induction us generalizing d with
  | nil => exact ⟨[], by simp [Numeral.spelling, Text.join]⟩
  | cons v us ih =>
    obtain ⟨hv, hus⟩ := List.forall_mem_cons.1 h
    cases hv with
    | seq hpoint hdigit =>
      obtain ⟨e, rfl⟩ := exists_digit hdigit
      obtain ⟨ds, hds⟩ := ih hus e
      refine ⟨e :: ds, ?_⟩
      have hnext : Numeral.spelling (d :: e :: ds) = d.word.toList ++ ['.'] ++ Numeral.spelling (e :: ds) :=
        rfl
      rw [hpoint.char_eq, List.flatten_cons, List.append_assoc ['.'], hds, hnext, List.append_assoc]

theorem exists_numeral (h : number.Matches u) :
    ∃ n : Numeral, n.digits ≠ [] ∧ String.ofList u = n.text := by
  cases h with
  | seq hopen h =>
    cases h with
    | seq hdigit h =>
      cases h with
      | seq hmore hclose =>
        obtain ⟨d, rfl⟩ := exists_digit hdigit
        obtain ⟨us, hus, rfl⟩ := hmore.exists_rounds
        obtain ⟨ds, hds⟩ := exists_digits hus d
        refine ⟨⟨d :: ds⟩, List.cons_ne_nil _ _, ?_⟩
        rw [hopen.char_eq, hclose.char_eq, ← List.append_assoc d.word.toList, hds]
        exact (Numeral.text_mk d ds).symm

theorem exists_text (h : string.Matches u) :
    ∃ s : String, IsText s ∧ String.ofList u = "^" ++ s ++ "^" := by
  cases h with
  | seq hopen h =>
    cases h with
    | @seq _ _ v _ hstar hclose =>
      have hchars : ∀ c ∈ v, c.isUpper = true ∨ c = '.' ∨ c = '+' := by
        intro c hc
        have hk := hstar.star_one c hc
        simp only [CharClass.has_iff, List.mem_cons, List.not_mem_nil, or_false] at hk
        obtain ⟨r, rfl | rfl | rfl, hk⟩ := hk
        · exact .inr (.inr (Char.toNat_inj.1 (Nat.le_antisymm hk.2 hk.1)))
        · exact .inr (.inl (Char.toNat_inj.1 (Nat.le_antisymm hk.2 hk.1)))
        · exact .inl (decide_eq_true hk)
      refine ⟨String.ofList v, by rw [IsText, String.toList_ofList]; exact hchars, ?_⟩
      rw [hopen.char_eq, hclose.char_eq, ← String.toList_inj]
      simp

theorem stripChar_text {s : String} (h : IsText s) : Text.stripChar '^' ("^" ++ s ++ "^") = s := by
  have hcaret : ∀ c ∈ s.toList, c ≠ '^' := by
    rintro c hc rfl
    exact absurd (h _ hc) (by decide)
  have hlist : "^" ++ s ++ "^" = String.ofList ('^' :: (s.toList ++ ['^'])) := by
    rw [← String.toList_inj]
    simp
  rw [hlist, Text.stripChar_enclosed (fun c hc => hcaret c (List.mem_of_mem_head? hc))
    fun c hc => hcaret c (List.mem_of_getLast? hc), String.ofList_toList]

theorem isName_of_matches (h : name.Matches u) : IsName (String.ofList u) := by
  cases h with
  | @plus _ v w hv hw =>
    have hchars : ∀ c ∈ v ++ w, c.isLower = true := by
      have hk : ∀ c : Char, CharClass.has { ranges := [('a', 'z')] } c = true → c.isLower = true := by
        intro c hk
        obtain ⟨r, hr, hk⟩ := CharClass.has_iff.1 hk
        obtain rfl := List.mem_singleton.1 hr
        exact Bool.and_eq_true_iff.2 ⟨decide_eq_true hk.1, decide_eq_true hk.2⟩
      refine List.forall_mem_append.2 ⟨fun c hc => ?_, fun c hc => hk c (hw.star_one c hc)⟩
      cases hv with
      | one hd =>
        rw [List.mem_singleton.1 hc]
        exact hk _ hd
    refine ⟨?_, by rw [String.toList_ofList]; exact hchars⟩
    rw [String.toList_ofList]
    cases hv
    simp

theorem exists_type (h : type.Matches u) : ∃ t : ValueType, String.ofList u = t.word := by
  obtain ⟨v, hv, rfl⟩ := h.exists_word
  simp only [List.mem_cons, List.not_mem_nil, or_false] at hv
  rcases hv with rfl | rfl | rfl
  exacts [⟨.numerus, by decide⟩, ⟨.veritas, by decide⟩, ⟨.locutio, by decide⟩]

theorem truth_eq (h : truth.Matches u) : String.ofList u = "VERUM" ∨ String.ofList u = "FALSUM" := by
  obtain ⟨v, hv, rfl⟩ := h.exists_word
  simpa [String.ofList_toList] using hv

def literal (n : Nat) : String := literals.getD (n - 1) ""

theorem pattern_of_symbol {r : LexRule} (h : r ∈ rules) :
    (r.symbol < 33 → 0 < r.symbol ∧ r.pattern = word (literal r.symbol.toNat).toList) ∧
      (r.symbol = 33 → r.pattern = number) ∧ (r.symbol = 34 → r.pattern = string) ∧
      (r.symbol = 35 → r.pattern = truth) ∧ (r.symbol = 36 → r.pattern = type) ∧
      (r.symbol = 37 → r.pattern = name) := by
  have hall : (rules.all fun r => decide (
      (r.symbol < 33 → 0 < r.symbol ∧ r.pattern = word (literal r.symbol.toNat).toList) ∧
      (r.symbol = 33 → r.pattern = number) ∧ (r.symbol = 34 → r.pattern = string) ∧
      (r.symbol = 35 → r.pattern = truth) ∧ (r.symbol = 36 → r.pattern = type) ∧
      (r.symbol = 37 → r.pattern = name))) = true := by
    decide +kernel
  exact of_decide_eq_true (List.all_eq_true.1 hall r h)

theorem Cuts.matches {start : Nat} {rest : List Char} {ps : List Piece} (h : Cuts start rest ps) :
    ∀ p ∈ ps, ∀ r, p.rule = some r → r ∈ rules ∧ r.pattern.Matches p.chars := by
  induction h with
  | done => simp
  | matched hr _ ih =>
    refine List.forall_mem_cons.2 ⟨fun r hrule => ?_, ih⟩
    cases hrule
    exact hr.first.matches
  | unreadable _ _ ih => exact List.forall_mem_cons.2 ⟨by simp, ih⟩

end Lexicon

/-- A text that a token of the type can have. -/
structure Lexicon.Fits (x : Int) (s : String) : Prop where
  literal : ∀ n : Nat, x = n → 0 < n → n < 33 → s = Lexicon.literal n
  number : x = 33 → ∃ n : Numeral, n.digits ≠ [] ∧ s = n.text
  string : x = 34 → ∃ c, IsText c ∧ s = "^" ++ c ++ "^"
  truth : x = 35 → s = "VERUM" ∨ s = "FALSUM"
  type : x = 36 → ∃ v : ValueType, s = v.word
  name : x = 37 → IsName s
  eof : x = Symbol.eof → s = "<EOF>"

def Token.Worded (t : Token) : Prop := ∃ s, t.text = some s ∧ Lexicon.Fits t.type s

namespace Lexicon

variable {src : List Char} {ps : List Piece}

theorem fits_of_matches {r : LexRule} (hr : r ∈ rules) {u : List Char} (h : r.pattern.Matches u) :
    Fits r.symbol (String.ofList u) := by
  obtain ⟨hliteral, hnumber, hstring, htruth, htype, hname⟩ := pattern_of_symbol hr
  refine ⟨fun n hs _ hlt => ?_, fun hs => exists_numeral (hnumber hs ▸ h),
    fun hs => exists_text (hstring hs ▸ h), fun hs => truth_eq (htruth hs ▸ h),
    fun hs => exists_type (htype hs ▸ h), fun hs => isName_of_matches (hname hs ▸ h), fun hs => ?_⟩
  · have hpattern := (hliteral (by omega)).2
    rw [hs, Int.toNat_natCast] at hpattern
    rw [hpattern] at h
    rw [h.word_eq, String.ofList_toList]
  · have hpos := (hliteral (by rw [hs]; decide)).1
    rw [hs] at hpos
    exact absurd hpos (by decide)

theorem worded_of_token? (h : Cuts 0 src ps) {p : Piece} (hp : p ∈ ps) {t : Token}
    (hpt : p.token? src = some t) : t.Worded := by
  obtain ⟨_, _, htext⟩ := Lexing.text_of_token? h hp hpt
  refine ⟨_, htext, ?_⟩
  cases hr : p.rule with
  | none => simp [Piece.token?, hr] at hpt
  | some r =>
    by_cases hd : r.fate = .drop
    · simp [Piece.token?, hr, hd] at hpt
    · simp only [Piece.token?, hr, hd, if_false, Option.some.injEq] at hpt
      subst hpt
      obtain ⟨hmem, hm⟩ := h.matches p hp r hr
      exact fits_of_matches hmem hm

theorem worded_of_mem (h : Cuts 0 src ps) {t : Token} (ht : t ∈ (tape src h).body) : t.Worded := by
  obtain ⟨p, hp, hpt⟩ := List.mem_filterMap.1 ht
  exact worded_of_token? h hp hpt

theorem worded_token (h : Cuts 0 src ps) {i : Nat} (hi : i ≤ (tape src h).last) :
    ((tape src h).token i).Worded := by
  rcases Nat.lt_or_eq_of_le hi with hlt | rfl
  · obtain ⟨t, ht, heq⟩ := Tape.token_body hlt
    have hw := worded_of_mem h ht
    rw [heq]
    exact hw
  · have heof := (Tape.type_eq_eof_iff hi).2 rfl
    have hend : (tape src h).token (tape src h).last = { eofToken src with index := (tape src h).last } := by
      rw [Tape.token_eq hi]
      simp [Tape.raw, Tape.last, tape]
    refine ⟨"<EOF>", ?_, ?_⟩
    · rw [hend]
      simp [Token.text, eofToken]
    · rw [heof]
      constructor <;> simp [Symbol.eof]

end Lexicon

end Throbac
