import Throbac.Program.Translate
import Throbac.Proofs.Lexing.Lexicon
import Throbac.Proofs.Program.Plain

/-!
# Numerals and decimal texts

Every numeral is the decimal text of its value with some zeros before it, digit by digit. A text that
is a numeral is read as one number, every number that is read is such a numeral, and what is written
for it is the decimal text of its value, as long as there are not too many digits.
-/
namespace Throbac

namespace Numeral

def padded (zeros v : Nat) : Numeral := ⟨List.replicate zeros 0 ++ (ofNat v).digits⟩

theorem length_padded (k v : Nat) : (padded k v).digits.length = k + (Nat.toDigits 10 v).length := by
  simp [padded, ofNat]

theorem digits_ofNat_lt {v : Nat} (h : v < 10) : (ofNat v).digits = [⟨v, h⟩] := by
  have hdigit : ∀ d : Fin 10, Digit.ofChar d.val.digitChar = d := by decide
  rw [ofNat, Nat.toDigits_of_lt_base h, List.map_singleton, hdigit ⟨v, h⟩]

theorem digits_ofNat_append {v : Nat} (hv : 0 < v) (d : Digit) :
    (ofNat (10 * v + d.val)).digits = (ofNat v).digits ++ [d] := by
  have hdigit : (Nat.toDigits 10 d.val).map Digit.ofChar = [d] := digits_ofNat_lt d.isLt
  rw [ofNat, ← Nat.toDigits_append_toDigits (by decide) hv d.isLt, List.map_append, hdigit]
  rfl

theorem value_append (ds : List Digit) (d : Digit) :
    (Numeral.mk (ds ++ [d])).value = 10 * (Numeral.mk ds).value + d.val := by
  simp [value]

theorem digits_ofNat_zero : (ofNat 0).digits = [0] := digits_ofNat_lt (by decide)

theorem exists_padded {ds : List Digit} (h : ds ≠ []) : ∃ k, Numeral.mk ds = padded k (Numeral.mk ds).value := by
  induction ds using List.reverseRecOn with
  | nil => exact absurd rfl h
  | append_singleton ds d ih =>
    rw [value_append]
    by_cases hnil : ds = []
    · subst hnil
      refine ⟨0, ?_⟩
      rw [padded, show 10 * (Numeral.mk []).value + d.val = d.val from Nat.zero_add _, digits_ofNat_lt d.isLt]
      rfl
    · obtain ⟨k, hk⟩ := ih hnil
      have hds : ds = List.replicate k 0 ++ (ofNat (Numeral.mk ds).value).digits := congrArg Numeral.digits hk
      rcases Nat.eq_zero_or_pos (Numeral.mk ds).value with hzero | hpos
      · -- one more zero before a single digit
        rw [hzero, digits_ofNat_zero, ← List.replicate_succ'] at hds
        refine ⟨k + 1, ?_⟩
        rw [hzero, padded, Nat.mul_zero, Nat.zero_add, digits_ofNat_lt d.isLt, ← hds]
      · refine ⟨k, ?_⟩
        rw [padded, digits_ofNat_append hpos, ← List.append_assoc, ← hds]

theorem value_padded (k v : Nat) : (padded k v).value = v := by
  have hzeros : (List.replicate k (0 : Digit)).foldl (fun v d => 10 * v + d.val) 0 = 0 := by
    induction k with
    | zero => rfl
    | succ k ih => exact ih
  rw [value, padded, List.foldl_append, hzeros]
  exact value_ofNat v

theorem spelling_cons (d : Digit) (ds : List Digit) :
    spelling (d :: ds) = d.word.toList ++ ds.flatMap fun d => '.' :: d.word.toList := by
  induction ds generalizing d with
  | nil => simp [spelling, Text.join]
  | cons e ds ih =>
    have hnext : spelling (d :: e :: ds) = d.word.toList ++ ['.'] ++ spelling (e :: ds) := rfl
    rw [hnext, ih, List.flatMap_cons, List.append_assoc]
    rfl

theorem padded_ne_nil (k v : Nat) : (padded k v).digits ≠ [] := by
  exact List.append_ne_nil_of_right_ne_nil _ (digits_ofNat_ne_nil v)

end Numeral

/-! Reading a numeral. -/

namespace Lexicon

open Pattern

theorem matches_word (cs : List Char) : (word cs).Matches cs := by
  induction cs with
  | nil => exact .empty
  | cons c cs ih => exact .seq (u := [c]) (.one (by simp [CharClass.has, CharClass.only])) ih

theorem matches_choice {p q : Pattern} {ps : List Pattern} {u : List Char} (hq : q ∈ p :: ps)
    (h : q.Matches u) : (choice p ps).Matches u := by
  induction ps generalizing p with
  | nil => exact List.mem_singleton.1 hq ▸ h
  | cons r ps ih =>
    rcases List.mem_cons.1 hq with rfl | hq
    · exact .left h
    · exact .right (ih hq)

theorem digit_matches (d : Digit) : digit.Matches d.word.toList := by
  have hall : ∀ d : Digit, d.word ∈ Digit.words := by decide
  exact matches_choice (List.mem_map_of_mem (f := fun w => word w.toList) (hall d)) (matches_word _)

theorem more_matches (ds : List Digit) :
    (star (seq (char '.') digit)).Matches (ds.flatMap fun d => '.' :: d.word.toList) := by
  induction ds with
  | nil => exact .none
  | cons d ds ih => exact .more (.seq (u := ['.']) (.one (by decide)) (digit_matches d)) ih

theorem number_matches {n : Numeral} (h : n.digits ≠ []) : number.Matches n.text.toList := by
  obtain ⟨ds⟩ := n
  obtain ⟨d, ds, rfl⟩ := List.exists_cons_of_ne_nil h
  have htext : (Numeral.mk (d :: ds)).text.toList =
      ['.'] ++ (d.word.toList ++ ((ds.flatMap fun d => '.' :: d.word.toList) ++ ['.'])) := by
    rw [Numeral.text_mk, String.toList_ofList, Numeral.spelling_cons, List.append_assoc]
    rfl
  rw [htext]
  exact .seq (.one (by decide)) (.seq (digit_matches d) (.seq (more_matches ds) (.one (by decide))))

theorem firstMatch_number {n : Numeral} (h : n.digits ≠ []) :
    FirstMatch n.text.toList { symbol := 33, pattern := number } := by
  refine ⟨_, _, rfl, number_matches h, ?_⟩
  intro r hr hm
  obtain ⟨⟨w, k⟩, hw, rfl⟩ := List.mem_map.1 hr
  -- the literal would begin with a point
  have hpoint : (literals.all fun w => w.toList.head? != some '.') = true := by decide +kernel
  have hne := List.all_eq_true.1 hpoint w (List.fst_mem_of_mem_zipIdx hw)
  rw [← hm.word_eq, Numeral.text] at hne
  simp at hne

theorem cuts_numeral {n : Numeral} (h : n.digits ≠ []) :
    Cuts 0 n.text.toList [⟨0, n.text.toList, some { symbol := 33, pattern := number }⟩] := by
  have hlongest : LongestMatch n.text.toList n.text.toList.length { symbol := 33, pattern := number } := by
    refine ⟨Nat.le_refl _, by rw [List.take_length]; exact firstMatch_number h, fun m hlt hle => ?_⟩
    exact absurd hle (Nat.not_le.2 hlt)
  have hcuts : Cuts 0 n.text.toList
      [⟨0, n.text.toList.take n.text.toList.length, some { symbol := 33, pattern := number }⟩] :=
    .matched hlongest (by rw [List.drop_length]; exact .done)
  rwa [List.take_length] at hcuts

end Lexicon

open Lexicon (Cuts Piece eofToken)

theorem treeToC_number {i : NodeInfo} (hk : i.kind = .number) {x : Token} {k v : Nat}
    (hx : x.text = some (Numeral.padded k v).text) :
    treeToC (.node i [.leaf x false]) =
      if k + (Nat.toDigits 10 v).length ≤ 4300 then .ok (toString v)
      else .error (.interrupted (.fault (.tooManyDigits (k + (Nat.toDigits 10 v).length)))) := by
  have hread : Phrase.ofTree? (.node i [.leaf x false]) = some (.expr (.number (Numeral.padded k v))) := by
    simp [Phrase.ofTree?, ParseTree.kind?, hk, NodeKind.rule, Expr.ofTree?, hx,
      Numeral.ofText?_text (Numeral.padded_ne_nil k v)]
  simp only [treeToC, hread, Phrase.toC, Expr.toC, Numeral.decimal, Numeral.length_padded,
    Numeral.value_padded, Numeral.maxDigits]
  split <;> split <;> first | rfl | omega

namespace Grammar

/-- Numerals and decimal texts. The decimal digits of a number behind any number of zeros are read as
one token, without a report; every number that is read from a source is of this form; and what is
written for it is the decimal text, unless there are more than 4300 digits with the zeros. What the lexer
has learned from other texts makes no difference. -/
theorem nextTokens_padded {as : Array (Automaton LexConfigs)} (has : Lexed as) :
    (∀ k v : Nat, ∃ x : Token, x.type = 33 ∧ x.channel = 0 ∧ x.text = some (Numeral.padded k v).text ∧
      ∀ n, ∃ l, Lexer.nextTokens (n + 2) (Lexing.grown (lexerOf (Numeral.padded k v).text) as) =
          .ok (x :: List.replicate (n + 1) (eofToken (Numeral.padded k v).text.toList)) l ∧
        l.reports = #[]) ∧
    (∀ src n ts l, Lexer.nextTokens n (Lexing.grown (lexerOf src) as) = .ok ts l → ∀ x ∈ ts, x.type = 33 →
      ∃ k v, x.text = some (Numeral.padded k v).text) ∧
    ∀ (i : NodeInfo) (x : Token) (k v : Nat), i.kind = .number → x.text = some (Numeral.padded k v).text →
      treeToC (.node i [.leaf x false]) =
        if k + (Nat.toDigits 10 v).length ≤ 4300 then .ok (toString v)
        else .error (.interrupted (.fault (.tooManyDigits (k + (Nat.toDigits 10 v).length)))) := by
  refine ⟨fun k v => ?_, fun src n ts l hrun x hx htype => ?_, fun i x k v hk hx => treeToC_number hk hx⟩
  · have hcuts := Lexicon.cuts_numeral (Numeral.padded_ne_nil k v)
    obtain ⟨ps, hps, hcalls⟩ := Lexing.nextTokens_eq lexerNetwork_plain lexerNetwork_spells
      lexerNetwork_tokenTypes lexerNetwork_modes (between_grown has.serves (Numeral.padded k v).text)
    rw [List.drop_zero] at hps
    obtain rfl := hps.unique hcuts
    obtain ⟨x, hx⟩ : ∃ x, Piece.token? (Numeral.padded k v).text.toList
        ⟨0, (Numeral.padded k v).text.toList, some { symbol := 33, pattern := Lexicon.number }⟩ = some x :=
      ⟨_, rfl⟩
    have htext := (Lexing.text_of_token? hcuts (List.mem_singleton_self _) hx).2.2
    rw [String.ofList_toList] at htext
    refine ⟨x, ?_, ?_, htext, fun n => ?_⟩
    · cases hx
      rfl
    · cases hx
      rfl
    · obtain ⟨l, htokens, hreports⟩ := hcalls (n + 2)
      simp only [List.filterMap_cons, hx, List.filterMap_nil, List.length_singleton] at htokens hreports
      refine ⟨l, ?_, ?_⟩
      · rw [htokens, List.singleton_append, List.take_succ_cons, List.take_replicate,
          Nat.min_eq_left (by omega)]
      · rw [hreports (by omega)]
        rfl
  · obtain ⟨ps, hps, hcalls⟩ := Lexing.nextTokens_eq lexerNetwork_plain lexerNetwork_spells
      lexerNetwork_tokenTypes lexerNetwork_modes (between_grown has.serves src)
    rw [List.drop_zero] at hps
    obtain ⟨l', htokens, -⟩ := hcalls n
    rw [hrun] at htokens
    obtain ⟨rfl, rfl⟩ := EStateM.Result.ok.inj htokens
    rcases List.mem_append.1 (List.mem_of_mem_take hx) with hx | hx
    · obtain ⟨p, hp, hpx⟩ := List.mem_filterMap.1 hx
      obtain ⟨s, hs, hfits⟩ := Lexicon.worded_of_token? hps hp hpx
      obtain ⟨⟨ds⟩, hne, rfl⟩ := hfits.number htype
      obtain ⟨k, hk⟩ := Numeral.exists_padded hne
      exact ⟨k, _, hs.trans (congrArg (fun n => some (Numeral.text n)) hk)⟩
    · rw [(List.mem_replicate.1 hx).2] at htype
      cases htype

/-- Four behind a zero is one token, and its text is that of four. -/
theorem nextTokens_padded_four :
    Lexed (Lexer.freshAutomata lexerNetwork) ∧ (Numeral.padded 1 4).text = ".NIL.IV." ∧ ∃ x l,
      Lexer.nextTokens 2 (Lexing.grown (lexerOf (Numeral.padded 1 4).text) (Lexer.freshAutomata lexerNetwork)) =
        .ok [x, eofToken (Numeral.padded 1 4).text.toList] l ∧ l.reports = #[] ∧ x.type = 33 ∧
      treeToC (.node { kind := .number } [.leaf x false]) = .ok "4" := by
  obtain ⟨hread, _, hwritten⟩ := nextTokens_padded .fresh
  obtain ⟨x, htype, _, htext, hcalls⟩ := hread 1 4
  obtain ⟨l, hrun, hreports⟩ := hcalls 0
  refine ⟨.fresh, by decide, x, l, hrun, hreports, htype, ?_⟩
  rw [hwritten _ x 1 4 rfl htext]
  rfl

end Grammar

end Throbac
