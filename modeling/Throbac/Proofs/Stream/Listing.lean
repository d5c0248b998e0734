import Throbac.Proofs.Stream.Sources

/-!
# A stream is a list with a position

A stream reads its source only as far as it is asked to, and skips the tokens off its channel. None
of this can be seen from outside: every sequence of requests is answered as if all tokens stood in a
list and the stream were a position in it. The list machine is `Tape.reply` and `Tape.next`; the main
statement, `performAll_eq`, also says what the buffer holds after any sequence of requests.
-/
namespace Throbac

/-- What can be asked of a stream. -/
inductive Request
  /-- The token so many places ahead, the present one at 0. -/
  | ahead (k : Nat)
  /-- The type of the token so many places ahead. -/
  | symbol (k : Nat)
  /-- A token before the present one, the nearest at 0. -/
  | behind (k : Nat)
  | consume
  | seek (i : Nat)
  | fill
  | text (first last : Option Int)
  deriving DecidableEq, Repr, Inhabited

inductive Reply
  | token (t : Option Token)
  | symbol (n : Int)
  | text (s : String)
  | done
  deriving Inhabited, Repr

namespace TokenStream

def perform : Request → StreamM Reply
  | .ahead k => .token <$> lookAhead (k + 1)
  | .symbol k => .symbol <$> symbol (k + 1)
  | .behind k => .token <$> lookAhead (-(k + 1))
  | .consume => consume *> pure .done
  | .seek i => seek i *> pure .done
  | .fill => fill *> pure .done
  | .text first last => .text <$> text first last

/-- Carries out requests one after the other, the next one also after a fault. -/
def performAll : List Request → TokenStream → List (Except Fault Reply) × TokenStream
  | [], s => ([], s)
  | r :: rs, s =>
    match perform r s with
    | .ok a s =>
      let (as, s) := performAll rs s
      (.ok a :: as, s)
    | .error e s =>
      let (as, s) := performAll rs s
      (.error e :: as, s)

end TokenStream

namespace Tape

variable (T : Tape)

/-- The texts of the tokens from one position to another without the end, in a row. -/
def textBetween (first last : Int) : Except Fault String :=
  if first < 0 ∨ last < first then .ok ""
  else do
    let texts ← ((T.tokens.take T.last).drop first.toNat |>.take (last - first + 1).toNat).mapM
      Token.textOrFault
    return String.join texts

def reply (i : Nat) : Request → Except Fault Reply
  | .ahead k => .ok (.token (some ((T.ahead i).getD k (T.token T.last))))
  | .symbol k => .ok (.symbol ((T.ahead i).getD k (T.token T.last)).type)
  | .behind k => .ok (.token (T.behind i)[k]?)
  | .consume => if (T.token i).isEof then .error .noTokenLeft else .ok .done
  | .seek _ | .fill => .ok .done
  | .text first last =>
    .text <$> T.textBetween (first.getD 0) (min (last.getD T.last) T.last)

def next (i : Nat) : Request → Nat
  | .consume => if (T.token i).isEof then i else T.seek (i + 1)
  | .seek k => T.seek k
  | _ => i

def replies : Nat → List Request → List (Except Fault Reply)
  | _, [] => []
  | i, r :: rs => T.reply i r :: replies (T.next i r) rs

/-- The position behind requests one after the other. -/
def arrive (i : Nat) (rs : List Request) : Nat := rs.foldl T.next i

end Tape

namespace TokenStream

variable {T : Tape} {s : TokenStream} {i : Nat}

theorem On.consume_last (h : On T T.last s) :
    TokenStream.consume s = .error .noTokenLeft s := by
  have hread := h.read
  have hsize := h.size
  have hend : s.fetchedEof = true := by
    rw [h.fetchedEof]
    exact decide_eq_true (by omega)
  have houtside : ¬ (s.index ≥ 0 ∧ if s.fetchedEof = true then s.index < (s.size : Int) - 1
      else s.index < s.size) := by
    rw [hend, if_pos rfl, h.index]
    omega
  have htype := (Tape.type_eq_eof_iff (Nat.le_refl T.last)).2 rfl
  rw [TokenStream.consume, Run.get_bind]
  dsimp only
  rw [decide_eq_false houtside, Bool.not_false, if_pos rfl, Run.bind_ok h.symbol_one, htype,
    if_pos rfl]
  rfl

theorem Holds.textOfSpan_eq (h : Holds T s) (hs : s.size = T.last + 1) {n : Nat}
    (hn : i + n ≤ T.last + 1) (acc : String) :
    textOfSpan.go (i : Int) acc n s = (MonadExcept.ofExcept (do
      let texts ← ((T.tokens.take T.last).drop i |>.take n).mapM Token.textOrFault
      return texts.foldl (· ++ ·) acc) : StreamM String) s := by
  induction n generalizing i acc with
  | zero =>
    simp only [textOfSpan.go, List.take_zero, List.mapM_nil]
    rfl
  | succ n ih =>
    rw [textOfSpan.go, Run.bind_ok (h.item (by omega)), Tape.isEof_token (by omega)]
    by_cases hlast : i = T.last
    · have hnone : ((T.tokens.take T.last).drop i |>.take (n + 1)) = [] := by
        rw [hlast, List.drop_of_length_le (List.length_take_le _ _), List.take_nil]
      rw [hnone, decide_eq_true hlast, if_pos rfl]
      rfl
    · have hcons : ((T.tokens.take T.last).drop i |>.take (n + 1)) =
          T.token i :: ((T.tokens.take T.last).drop (i + 1) |>.take n) := by
        have hget : (T.tokens.take T.last)[i]? = some (T.token i) := by
          rw [List.getElem?_take_of_lt (by omega), Tape.tokens_getElem? (by omega)]
        obtain ⟨hlt, hval⟩ := List.getElem?_eq_some_iff.1 hget
        rw [List.drop_eq_getElem_cons hlt, hval, List.take_succ_cons]
      rw [hcons, decide_eq_false hlast, if_neg Bool.false_ne_true, List.mapM_cons]
      cases htext : (T.token i).textOrFault with
      | error e => rfl
      | ok text =>
        rw [Run.ofExcept_ok_bind, show ((i : Int) + 1) = ((i + 1 : Nat) : Int) by omega,
          ih (by omega) (acc ++ text)]
        cases ((T.tokens.take T.last).drop (i + 1) |>.take n).mapM Token.textOrFault <;> rfl

theorem On.text (h : On T i s) (first last : Option Int) :
    ∃ s', text first last s = (MonadExcept.ofExcept
        (T.textBetween (first.getD 0) (min (last.getD T.last) T.last)) : StreamM String) s' ∧
      On T i s' := by
  obtain ⟨s', hfill, hon, hsize⟩ := h.fill
  refine ⟨s', ?_, hon⟩
  have hspan : TokenStream.text first last s =
      textOfSpan (first.getD 0) (min (last.getD T.last) T.last) s' := by
    rw [TokenStream.text, Run.bind_ok hfill, Run.get_bind, hsize]
    cases last with
    | none =>
      congr 2
      simp only [Option.getD_none]
      omega
    | some k =>
      congr 2
      simp only [Option.getD_some]
      omega
  rw [hspan]
  generalize first.getD 0 = a
  generalize hb : min (last.getD T.last) (T.last : Int) = b
  rw [textOfSpan, Tape.textBetween]
  by_cases hempty : a < 0 ∨ b < a
  · rw [if_pos hempty, if_pos (by omega)]
    rfl
  · have hcast : a = (a.toNat : Int) := by omega
    rw [if_neg hempty, if_neg (by omega)]
    rw [hcast, hon.toHolds.textOfSpan_eq hsize (by omega)]
    rfl

theorem On.perform (h : On T i s) (r : Request) :
    ∃ s', perform r s = (MonadExcept.ofExcept (T.reply i r) : StreamM Reply) s' ∧
      On T (T.next i r) s' := by
  cases r with
  | ahead k =>
    obtain ⟨s', hlook, hon⟩ := h.lookAhead_onward k
    refine ⟨s', ?_, hon⟩
    rw [Tape.reply, Tape.ahead_getD h.seek_eq]
    exact Run.map_ok hlook
  | symbol k =>
    obtain ⟨s', hlook, hon⟩ := h.lookAhead_onward k
    refine ⟨s', ?_, hon⟩
    rw [Tape.reply, Tape.ahead_getD h.seek_eq]
    exact Run.map_ok (by rw [TokenStream.symbol, Run.bind_ok hlook]; rfl)
  | behind k => exact ⟨s, Run.map_ok (h.lookBack k), h⟩
  | consume =>
    have heof := Tape.isEof_token h.le
    by_cases hlast : i = T.last
    · subst hlast
      refine ⟨s, ?_, ?_⟩
      · rw [Tape.reply, heof, decide_eq_true rfl, if_pos rfl]
        exact Run.bind_error h.consume_last
      · rw [Tape.next, heof, decide_eq_true rfl, if_pos rfl]
        exact h
    · have hle := h.le
      obtain ⟨s', hconsume, hon⟩ := h.consume (by omega)
      refine ⟨s', ?_, ?_⟩
      · rw [Tape.reply, heof, decide_eq_false hlast, if_neg Bool.false_ne_true]
        exact Run.bind_ok hconsume
      · rw [Tape.next, heof, decide_eq_false hlast, if_neg Bool.false_ne_true]
        exact hon
  | seek k =>
    obtain ⟨s', hseek, hon⟩ := h.seek k
    exact ⟨s', Run.bind_ok hseek, hon⟩
  | fill =>
    obtain ⟨s', hfill, hon, _⟩ := h.fill
    exact ⟨s', Run.bind_ok hfill, hon⟩
  | text first last =>
    obtain ⟨s', htext, hon⟩ := h.text first last
    refine ⟨s', ?_, hon⟩
    rw [TokenStream.perform, Run.map_apply, htext, Tape.reply]
    cases T.textBetween (first.getD 0) (min (last.getD T.last) T.last) <;> rfl

theorem On.consume_of_start {s₀ : TokenStream} (h : On T i s)
    (hstart : TokenStream.start s₀ = .ok ⟨⟩ s) (hindex : s₀.index = -1) :
    TokenStream.consume s₀ = TokenStream.consume s := by
  have hlook : TokenStream.symbol 1 s₀ = .ok (T.token i).type s := by
    have hone := h.symbol_one
    simp only [TokenStream.symbol, TokenStream.lookAhead, Run.bind_apply, h.start] at hone
    simp only [TokenStream.symbol, TokenStream.lookAhead, Run.bind_apply, hstart, hone]
  have houtside : ¬ (s₀.index ≥ 0 ∧ if s₀.fetchedEof = true then s₀.index < (s₀.size : Int) - 1
      else s₀.index < s₀.size) := by
    rw [hindex]
    omega
  have heof := Tape.type_eq_eof_iff h.le
  by_cases hlast : i = T.last
  · subst hlast
    rw [h.consume_last, TokenStream.consume, Run.get_bind]
    dsimp only
    rw [decide_eq_false houtside, Bool.not_false, if_pos rfl, Run.bind_ok hlook,
      if_pos (heof.2 rfl)]
    rfl
  · have hinside := h.inside (Nat.lt_of_le_of_ne h.le hlast)
    unfold TokenStream.consume
    rw [Run.get_bind, Run.get_bind]
    dsimp only
    rw [decide_eq_false houtside, decide_eq_true hinside, Bool.not_false, Bool.not_true, if_pos rfl,
      if_neg Bool.false_ne_true, Run.bind_ok hlook, if_neg (fun he => hlast (heof.1 he))]

theorem At.perform (h : At T i s) (r : Request) :
    ∃ s', perform r s = (MonadExcept.ofExcept (T.reply i r) : StreamM Reply) s' ∧
      On T (T.next i r) s' := by
  rcases h with h | hfresh
  · exact h.perform r
  · have hat : At T i s := .inr hfresh
    obtain ⟨hholds, hindex, hsize, hi⟩ := hfresh
    obtain ⟨s₁, hstart, hon, _⟩ := hat.start
    -- all requests but one begin with the move to the first place
    have hfirst : ∀ {α : Type} (f : Unit → StreamM α), (TokenStream.start >>= f) s =
        (TokenStream.start >>= f) s₁ := by
      intro α f
      rw [Run.bind_ok hstart, Run.bind_ok hon.start]
    have hsame : TokenStream.perform r s = TokenStream.perform r s₁ := by
      cases r with
      | ahead k | behind k =>
        simp only [TokenStream.perform, Run.map_apply, TokenStream.lookAhead, hfirst]
      | symbol k =>
        simp only [TokenStream.perform, Run.map_apply, TokenStream.symbol, Run.bind_apply,
          TokenStream.lookAhead, hstart, hon.start]
      | consume =>
        rw [TokenStream.perform]
        exact Run.bind_congr (hon.consume_of_start hstart hindex)
      | seek k =>
        rw [TokenStream.perform]
        exact Run.bind_congr (hfirst _)
      | fill =>
        rw [TokenStream.perform]
        exact Run.bind_congr (hfirst _)
      | text first last =>
        have htext : TokenStream.text first last s = TokenStream.text first last s₁ :=
          Run.bind_congr (hfirst _)
        rw [TokenStream.perform, Run.map_apply, Run.map_apply, htext]
    rw [hsame]
    exact hon.perform r

/-- What a stream that answered requests is like: it holds a beginning of the tape, and after the
first request it stands where the list machine stands. -/
structure Answered (T : Tape) (i : Nat) (rs : List Request) (s : TokenStream) : Prop where
  holds : Holds T s
  on : rs ≠ [] → On T (T.arrive i rs) s

theorem At.performAll (h : At T i s) (rs : List Request) :
    (performAll rs s).1 = T.replies i rs ∧ Answered T i rs (performAll rs s).2 := by
  induction rs generalizing i s with
  | nil =>
    refine ⟨rfl, ?_, fun hne => absurd rfl hne⟩
    rcases h with h | ⟨h, _⟩
    · exact h.toHolds
    · exact h
  | cons r rs ih =>
    obtain ⟨s', hperform, hon⟩ := h.perform r
    obtain ⟨hreplies, hanswered⟩ := ih (.inl hon)
    have harrive : On T (T.arrive i (r :: rs)) (TokenStream.performAll rs s').2 := by
      cases rs with
      | nil => exact hon
      | cons r' rs => exact hanswered.on (List.cons_ne_nil _ _)
    rw [Tape.replies, ← hreplies, TokenStream.performAll, hperform]
    cases T.reply i r with
    | ok a => exact ⟨rfl, hanswered.holds, fun _ => harrive⟩
    | error e => exact ⟨rfl, hanswered.holds, fun _ => harrive⟩

theorem Holds.buffered (h : Holds T s) {j : Nat} {t : Token} (ht : s.tokens[j]? = some t) :
    t = T.token j ∧ j ≤ T.last := by
  have hsize := h.size
  obtain ⟨hj, _⟩ := Array.getElem?_eq_some_iff.1 ht
  have hlt : j < s.size := hj
  rw [← Array.getElem?_toList, h.tokens, List.getElem?_take_of_lt hlt,
    Tape.tokens_getElem? (by omega)] at ht
  exact ⟨(Option.some.inj ht).symm, by omega⟩

/-- Whatever is asked of a new stream, it answers like a list of all tokens with a position, and
also like a stream that was filled first. Its buffer is a beginning of the tokens, each with its
position and only the last one the end; and after the first request it stands at a token of the
default channel or at the end. -/
theorem performAll_eq (T : Tape) {source : TokenSource}
    (hs : Feeds T.silent T.lexed T.raw source) (rs : List Request) :
    (performAll rs { source }).1 = T.replies (T.seek 0) rs ∧
      (performAll (.fill :: rs) { source }).1 = .ok .done :: (performAll rs { source }).1 ∧
      (∃ n, (performAll rs { source }).2.tokens.toList = (numbered (T.body ++ [T.ending])).take n) ∧
      (∀ (j : Nat) t, (performAll rs { source }).2.tokens[j]? = some t →
        t.index = j ∧ (t.isEof = true ↔ j = T.body.length)) ∧
      (rs ≠ [] → (performAll rs { source }).2.index = T.arrive (T.seek 0) rs ∧
        ∃ t, (performAll rs { source }).2.tokens[T.arrive (T.seek 0) rs]? = some t ∧
          (t.channel = 0 ∨ t.isEof = true)) := by
  obtain ⟨hreplies, hanswered⟩ := (at_new hs).performAll rs
  refine ⟨hreplies, ?_, ⟨_, hanswered.holds.tokens⟩, ?_, ?_⟩
  · rw [((at_new hs).performAll (.fill :: rs)).1, hreplies]
    rfl
  · intro j t ht
    obtain ⟨rfl, hj⟩ := hanswered.holds.buffered ht
    refine ⟨Tape.index_token hj, ?_⟩
    rw [Tape.isEof_token hj, decide_eq_true_iff]
    rfl
  · intro hne
    have hon := hanswered.on hne
    have hread : T.arrive (T.seek 0) rs < (performAll rs { source }).2.tokens.size := hon.read
    refine ⟨hon.index, _, Array.getElem?_eq_getElem hread, ?_⟩
    obtain ⟨htoken, _⟩ := hanswered.holds.buffered (Array.getElem?_eq_getElem hread)
    rw [htoken]
    simpa [Tape.visible] using hon.visible

def remarkTape : Tape where
  body := [{ type := 37 }, { type := 39, channel := 1 }]
  ending := { type := Symbol.eof }
  silent := true
  body_isEof := by decide
  ending_isEof := rfl

/-- A list of these tokens feeds a stream: taking the word moves behind the remark, and the end
cannot be taken. -/
theorem performAll_eq_remark :
    Feeds true (fun _ => True) remarkTape.raw (.list { tokens := remarkTape.raw.toArray }) ∧
      (performAll [.consume, .consume]
        { source := .list { tokens := remarkTape.raw.toArray } }).1 =
        remarkTape.replies (remarkTape.seek 0) [.consume, .consume] := by
  have hfeeds : Feeds true (fun _ => True) remarkTape.raw (.list { tokens := remarkTape.raw.toArray }) :=
    ⟨_, ListSource.supply_ahead true _, _, [], rfl, by simp⟩
  exact ⟨hfeeds, (performAll_eq remarkTape hfeeds [.consume, .consume]).1⟩

end TokenStream

end Throbac
