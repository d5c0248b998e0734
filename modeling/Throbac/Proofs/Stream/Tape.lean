import Throbac.Stream.Tokens

/-!
# Tapes of tokens

A tape is the whole sequence of tokens that a source will hand out, up to the end of the input. A
stream moves over the places of its tape where a parser can stand: the tokens of the default channel
and the end.
-/
namespace Throbac

def numbered (ts : List Token) : List Token := ts.mapIdx fun i t => { t with index := i }

structure Tape where
  body : List Token
  ending : Token
  /-- Whether the source reports nothing while it is read. -/
  silent : Bool
  /-- What holds of the source while it is read, if it is a lexer. -/
  lexed : Lexer → Prop := fun _ => True
  body_isEof : ∀ t ∈ body, t.isEof = false
  ending_isEof : ending.isEof = true

namespace Tape

variable (T : Tape)

def raw : List Token := T.body ++ [T.ending]

def tokens : List Token := numbered T.raw

def last : Nat := T.body.length

/-- The token at a position; behind the end it is the end. -/
def token (i : Nat) : Token := T.tokens.getD i { T.ending with index := T.last }

def visible (t : Token) : Bool := t.channel == 0 || t.isEof

/-- The first place from a position on where a parser can stand. -/
def seek (i : Nat) : Nat := min (i + (T.tokens.drop i).findIdx visible) T.last

def Spelled : Prop := ∀ t ∈ T.body, t.text.isSome = true

/-- The tokens that a parser sees from a position on. -/
def ahead (i : Nat) : List Token := (T.tokens.drop i).filter visible

/-- The tokens of the default channel before a position, the nearest first. -/
def behind (i : Nat) : List Token := ((T.tokens.take i).filter (·.channel == 0)).reverse

def onward (i : Nat) : Nat → Nat
  | 0 => i
  | k + 1 => onward (T.seek (i + 1)) k

theorem length_raw : T.raw.length = T.last + 1 := by simp [raw, last]

theorem length_tokens : T.tokens.length = T.last + 1 := by simp [tokens, numbered, length_raw]

variable {T} {i j : Nat}

theorem tokens_getElem? (h : i ≤ T.last) : T.tokens[i]? = some (T.token i) := by
  have hlt : i < T.tokens.length := by rw [length_tokens]; omega
  simp [token, hlt]

theorem token_eq (h : i ≤ T.last) : T.token i = { T.raw.getD i T.ending with index := i } := by
  have hraw : i < T.raw.length := by rw [length_raw]; omega
  have hget : T.tokens[i]? = some { T.raw.getD i T.ending with index := i } := by
    simp [tokens, numbered, hraw]
  rw [tokens_getElem? h] at hget
  exact Option.some.inj hget

theorem index_token (h : i ≤ T.last) : (T.token i).index = i := by rw [token_eq h]

theorem token_body (h : i < T.last) : ∃ t ∈ T.body, T.token i = { t with index := i } := by
  have hlen : i < T.body.length := h
  refine ⟨T.body[i], List.getElem_mem _, ?_⟩
  rw [token_eq (Nat.le_of_lt h)]
  simp [raw, List.getElem?_append_left hlen, hlen]

theorem Spelled.text_token (hT : T.Spelled) (h : i < T.last) :
    ∃ text, (T.token i).textOrFault = .ok text := by
  obtain ⟨t, ht, hi⟩ := token_body h
  obtain ⟨text, htext⟩ := Option.isSome_iff_exists.1 (hT t ht)
  have hsame : (T.token i).text = some text := by
    rw [hi]
    exact htext
  exact ⟨text, by rw [Token.textOrFault, hsame]⟩

theorem isEof_token (h : i ≤ T.last) : (T.token i).isEof = decide (i = T.last) := by
  rcases Nat.lt_or_eq_of_le h with hlt | rfl
  · obtain ⟨t, ht, hi⟩ := token_body hlt
    have hne : (T.token i).isEof = t.isEof := by rw [hi]; rfl
    rw [hne, T.body_isEof t ht]
    simp [Nat.ne_of_lt hlt]
  · rw [token_eq h]
    have he : T.raw.getD T.last T.ending = T.ending := by simp [raw, last]
    rw [he]
    simpa [Token.isEof] using T.ending_isEof

theorem type_eq_eof_iff (hi : i ≤ T.last) : (T.token i).type = Symbol.eof ↔ i = T.last := by
  have h := isEof_token hi
  rw [Token.isEof] at h
  constructor
  · intro heof
    simpa [heof] using h.symm
  · intro hlast
    simpa [hlast] using h

theorem visible_token_last : visible (T.token T.last) = true := by
  simp [visible, isEof_token]

theorem drop_tokens (h : i ≤ T.last) : T.tokens.drop i = T.token i :: T.tokens.drop (i + 1) := by
  have hlt : i < T.tokens.length := by rw [length_tokens]; omega
  rw [List.drop_eq_getElem_cons hlt]
  have := tokens_getElem? h
  rw [List.getElem?_eq_getElem hlt] at this
  rw [Option.some.inj this]

theorem seek_le : T.seek i ≤ T.last := Nat.min_le_right _ _

theorem seek_of_visible (h : i ≤ T.last) (hv : visible (T.token i) = true) : T.seek i = i := by
  rw [seek, drop_tokens h, List.findIdx_cons, hv]
  simp
  omega

theorem seek_of_hidden (h : i < T.last) (hv : visible (T.token i) = false) :
    T.seek i = T.seek (i + 1) := by
  rw [seek, seek, drop_tokens (Nat.le_of_lt h), List.findIdx_cons, hv]
  simp
  omega

theorem seek_of_last_lt (h : T.last < i) : T.seek i = T.last := by
  rw [seek, List.drop_of_length_le (by rw [length_tokens]; omega)]
  simp
  omega

theorem seek_cases (h : i ≤ T.last) :
    (visible (T.token i) = true ∧ T.seek i = i) ∨
      (visible (T.token i) = false ∧ i < T.last ∧ T.seek i = T.seek (i + 1)) := by
  cases hv : visible (T.token i) with
  | true => exact .inl ⟨rfl, seek_of_visible h hv⟩
  | false =>
    refine .inr ⟨rfl, ?_, ?_⟩
    · refine Nat.lt_of_le_of_ne h fun hi => ?_
      rw [hi, visible_token_last] at hv
      exact nomatch hv
    · refine seek_of_hidden (Nat.lt_of_le_of_ne h fun hi => ?_) hv
      rw [hi, visible_token_last] at hv
      exact nomatch hv

theorem le_seek (h : i ≤ T.last) : i ≤ T.seek i := by
  rw [seek]
  omega

theorem visible_token_seek : visible (T.token (T.seek i)) = true := by
  rcases Nat.lt_or_ge T.last i with h | h
  · rw [seek_of_last_lt h, visible_token_last]
  · induction hk : T.last - i generalizing i with
    | zero =>
      obtain rfl : i = T.last := by omega
      rw [seek_of_visible h visible_token_last, visible_token_last]
    | succ k ih =>
      rcases seek_cases h with ⟨hv, hs⟩ | ⟨_, hlt, hs⟩
      · rw [hs, hv]
      · rw [hs]
        exact ih (by omega) (by omega)

theorem seek_seek : T.seek (T.seek i) = T.seek i := seek_of_visible seek_le visible_token_seek

theorem ahead_seek (h : i ≤ T.last) : T.ahead i = T.ahead (T.seek i) := by
  induction hk : T.last - i generalizing i with
  | zero =>
    obtain rfl : i = T.last := by omega
    rw [seek_of_visible h visible_token_last]
  | succ k ih =>
    rcases seek_cases h with ⟨_, hs⟩ | ⟨hv, hlt, hs⟩
    · rw [hs]
    · rw [hs, ← ih (by omega) (by omega), ahead, drop_tokens h, List.filter_cons, hv]
      rfl

theorem ahead_eq (h : i ≤ T.last) (hv : visible (T.token i) = true) :
    T.ahead i = T.token i :: T.ahead (i + 1) := by
  rw [ahead, drop_tokens h, List.filter_cons, hv]
  rfl

theorem ahead_last : T.ahead T.last = [T.token T.last] := by
  rw [ahead_eq (Nat.le_refl _) visible_token_last, ahead,
    List.drop_of_length_le (Nat.le_of_eq T.length_tokens)]
  rfl

theorem le_of_seek_eq (h : T.seek i = i) : i ≤ T.last := h ▸ seek_le

theorem onward_last (k : Nat) : T.onward T.last k = T.last := by
  induction k with
  | zero => rfl
  | succ k ih => rw [onward, seek_of_last_lt (Nat.lt_succ_self _), ih]

theorem ahead_getD (h : T.seek i = i) (k : Nat) :
    (T.ahead i).getD k (T.token T.last) = T.token (T.onward i k) := by
  induction k generalizing i with
  | zero =>
    have hv : visible (T.token i) = true := h ▸ visible_token_seek
    rw [ahead_eq (le_of_seek_eq h) hv]
    rfl
  | succ k ih =>
    have hv : visible (T.token i) = true := h ▸ visible_token_seek
    rw [ahead_eq (le_of_seek_eq h) hv, List.getD_cons_succ, onward]
    rcases Nat.lt_or_eq_of_le (le_of_seek_eq h) with hlt | rfl
    · rw [ahead_seek (show i + 1 ≤ T.last from hlt), ih seek_seek]
    · rw [seek_of_last_lt (Nat.lt_succ_self _), onward_last, ahead,
        List.drop_of_length_le (Nat.le_of_eq T.length_tokens)]
      rfl

theorem behind_succ (h : i ≤ T.last) :
    T.behind (i + 1) = if (T.token i).channel = 0 then T.token i :: T.behind i else T.behind i := by
  rw [behind, List.take_add_one, tokens_getElem? h, Option.toList_some, List.filter_append,
    List.reverse_append]
  by_cases hc : (T.token i).channel = 0
  · simp [hc, behind]
  · simp [hc, behind]

theorem length_behind_le (i : Nat) : (T.behind i).length ≤ i := by
  rw [behind, List.length_reverse]
  calc ((T.tokens.take i).filter (·.channel == 0)).length
      ≤ (T.tokens.take i).length := List.length_filter_le ..
    _ ≤ i := by rw [List.length_take]; exact Nat.min_le_left _ _

/-- Going from place to place, the tokens on the way in order. At the end of the tape the last token
can be met any number of times. -/
inductive Walk (T : Tape) : Nat → List Token → Nat → Prop
  | nil {i : Nat} : Walk T i [] i
  | cons {i j : Nat} {ts : List Token} (h : Walk T (T.seek (i + 1)) ts j) :
    Walk T i (T.token i :: ts) j

namespace Walk

variable {ts us : List Token} {k : Nat}

theorem single : T.Walk i [T.token i] (T.seek (i + 1)) := .cons .nil

theorem append (h : T.Walk i ts j) (h' : T.Walk j us k) : T.Walk i (ts ++ us) k := by
  induction h with
  | nil => exact h'
  | cons _ ih => exact .cons (ih h')

theorem ahead_eq (h : T.Walk i ts j) (hi : T.seek i = i) (hts : ∀ t ∈ ts, t.isEof = false) :
    T.ahead i = ts ++ T.ahead j := by
  induction h with
  | nil => rfl
  | @cons i j ts _ ih =>
    have hle : i ≤ T.last := hi ▸ seek_le
    have hne : i ≠ T.last := by
      have := hts _ List.mem_cons_self
      rw [isEof_token hle] at this
      exact of_decide_eq_false this
    have hv : visible (T.token i) = true := hi ▸ visible_token_seek
    rw [Tape.ahead_eq hle hv, ahead_seek (by omega), ih seek_seek fun t ht =>
      hts t (List.mem_cons_of_mem _ ht)]
    rfl

theorem seek_eq (h : T.Walk i ts j) (hi : T.seek i = i) : T.seek j = j := by
  induction h with
  | nil => exact hi
  | cons _ ih => exact ih seek_seek

theorem split (h : T.Walk i (ts ++ us) j) : ∃ k, T.Walk i ts k ∧ T.Walk k us j := by
  induction ts generalizing i with
  | nil => exact ⟨i, .nil, h⟩
  | cons t ts ih =>
    cases h with
    | cons h =>
      obtain ⟨k, h₁, h₂⟩ := ih h
      exact ⟨k, .cons h₁, h₂⟩

theorem ahead_eq_of_eof {t : Token} (h : T.Walk i (ts ++ [t]) j) (hi : T.seek i = i)
    (hts : ∀ t ∈ ts, t.isEof = false) (ht : t.isEof = true) :
    T.ahead i = ts ++ [t] ∧ j = T.last := by
  obtain ⟨k, hbody, hend⟩ := h.split
  have hk := hbody.seek_eq hi
  cases hend with
  | cons hend =>
    cases hend
    have hle : k ≤ T.last := hk ▸ seek_le
    rw [isEof_token hle] at ht
    obtain rfl := of_decide_eq_true ht
    exact ⟨by rw [hbody.ahead_eq hi hts, ahead_last], seek_of_last_lt (Nat.lt_succ_self _)⟩

end Walk

end Tape

end Throbac
