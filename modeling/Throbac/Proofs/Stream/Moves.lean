import Throbac.Proofs.Run
import Throbac.Proofs.Stream.Tape

/-!
# Moving over a tape

What a stream does, in terms of its tape: looking at tokens reads as far as needed and leaves the
place, and every move ends at a place of the tape. No operation fails as long as the source keeps to
its tape.
-/
namespace Throbac

/-- A family of sources that hand out the listed tokens one after another. Telling what the source
reported so far makes no difference to it. -/
structure Supply (silent : Bool) (lexed : Lexer → Prop) (P : List Token → TokenSource → Prop) : Prop where
  next : ∀ {t ts s}, P (t :: ts) s →
    ∃ s', TokenSource.next s = .ok t s' ∧ ∀ i, P ts (s'.number i)
  cleared : ∀ {ts l}, P ts (.lexer l) → P ts (.lexer { l with reports := #[], trace := #[] })
  quiet : ∀ {ts l}, silent = true → P ts (.lexer l) → l.reports = #[]
  lexer : ∀ {ts l}, P ts (.lexer l) → lexed l
  bound : ∀ {ts s}, P ts s → ts.length ≤ s.remaining

def Feeds (silent : Bool) (lexed : Lexer → Prop) (ts : List Token) (s : TokenSource) : Prop :=
  ∃ P, Supply silent lexed P ∧ P ts s

namespace TokenStream

/-- The stream has read some tokens of the tape and its source hands out the others. -/
structure Holds (T : Tape) (s : TokenStream) : Prop where
  channel : s.channel = some 0
  tokens : s.tokens.toList = T.tokens.take s.size
  size : s.size ≤ T.last + 1
  fetchedEof : s.fetchedEof = decide (s.size = T.last + 1)
  feeds : Feeds T.silent T.lexed (T.raw.drop s.size) s.source

/-- The stream stands at a place of the tape. -/
structure On (T : Tape) (i : Nat) (s : TokenStream) : Prop extends Holds T s where
  index : s.index = i
  read : i < s.size
  visible : Tape.visible (T.token i) = true

/-- The stream stands at a place of the tape, or before its first place and has read nothing. -/
def At (T : Tape) (i : Nat) (s : TokenStream) : Prop :=
  On T i s ∨ (Holds T s ∧ s.index = -1 ∧ s.size = 0 ∧ i = T.seek 0)

/-- The stream has read on without moving. -/
structure ReadOn (T : Tape) (s s' : TokenStream) : Prop extends Holds T s' where
  index : s'.index = s.index
  grows : s.size ≤ s'.size

variable {T : Tape} {s s' s'' : TokenStream} {i : Nat}

theorem Holds.refl (h : Holds T s) : ReadOn T s s := ⟨h, rfl, Nat.le_refl _⟩

theorem ReadOn.trans (h : ReadOn T s s') (h' : ReadOn T s' s'') : ReadOn T s s'' :=
  ⟨h'.toHolds, h'.index.trans h.index, Nat.le_trans h.grows h'.grows⟩

theorem On.le (h : On T i s) : i ≤ T.last := by
  have := h.size
  have := h.read
  omega

theorem On.readOn (h : On T i s) (hr : ReadOn T s s') : On T i s' :=
  ⟨hr.toHolds, hr.index.trans h.index, Nat.lt_of_lt_of_le h.read hr.grows, h.visible⟩

theorem Holds.item (h : Holds T s) (hi : i < s.size) : item i s = .ok (T.token i) s := by
  have hle : i ≤ T.last := by
    have := h.size
    omega
  have hsize : i < s.tokens.size := hi
  have hget : s.tokens[i]? = some (T.token i) := by
    rw [← Array.getElem?_toList, h.tokens, List.getElem?_take_of_lt hi, Tape.tokens_getElem? hle]
  simp only [TokenStream.item, Run.get_bind, Sequence.arrayAt, Sequence.arrayAt?,
    Sequence.resolve?_natCast hsize, Option.bind_some, hget, Run.ofExcept_ok]

theorem Holds.pull (h : Holds T s) (hs : s.size ≤ T.last) :
    ∃ s', pull s = .ok (T.token s.size) s' ∧ ReadOn T s s' ∧
      s'.size = s.size + 1 := by
  obtain ⟨P, hP, hfeeds⟩ := h.feeds
  have hlt : s.size < T.raw.length := by rw [Tape.length_raw]; omega
  rw [List.drop_eq_getElem_cons hlt] at hfeeds
  obtain ⟨source, hnext, hrest⟩ := hP.next hfeeds
  have htok : T.token s.size = { T.raw[s.size] with index := s.size } := by
    rw [Tape.token_eq hs]
    simp [hlt]
  have hpush : ∀ source eof, ({ s with
      source, tokens := s.tokens.push (T.token s.size), fetchedEof := eof } : TokenStream).size =
        s.size + 1 := fun _ _ => Array.size_push ..
  refine ⟨{ s with
    source := source.number s.size, tokens := s.tokens.push (T.token s.size)
    fetchedEof := s.fetchedEof || (T.token s.size).isEof }, ?_,
    ⟨⟨h.channel, ?_, ?_, ?_, ?_⟩, rfl, ?_⟩, ?_⟩
  · rw [htok]
    simp only [TokenStream.pull, hnext]
    rfl
  · rw [Array.toList_push, h.tokens, hpush, List.take_add_one, Tape.tokens_getElem? hs]
    rfl
  · rw [hpush]
    omega
  · have hne : decide (s.size = T.last + 1) = false := decide_eq_false (by omega)
    rw [hpush, h.fetchedEof, Tape.isEof_token hs, hne, Bool.false_or, decide_eq_decide]
    omega
  · rw [hpush]
    exact ⟨P, hP, hrest _⟩
  · rw [hpush]
    omega
  · exact hpush _ _

theorem Holds.pullMany (h : Holds T s) (hs : s.size ≤ T.last) (n : Nat) :
    ∃ s', pullMany n s = .ok (min n (T.last + 1 - s.size)) s' ∧ ReadOn T s s' ∧
      s'.size = min (s.size + n) (T.last + 1) := by
  induction n generalizing s with
  | zero => exact ⟨s, by simp [TokenStream.pullMany], h.refl, by omega⟩
  | succ n ih =>
    obtain ⟨s₁, hpull, hread, hsize⟩ := h.pull hs
    rw [TokenStream.pullMany, Run.bind_ok hpull, Tape.isEof_token hs]
    by_cases hend : s.size = T.last
    · refine ⟨s₁, ?_, hread, by omega⟩
      simp only [hend, decide_true, if_true, Run.pure_apply]
      congr 1
      omega
    · obtain ⟨s₂, hmany, hread₂, hsize₂⟩ := ih hread.toHolds (by omega)
      refine ⟨s₂, ?_, hread.trans hread₂, by omega⟩
      simp only [hend, decide_false, Bool.false_eq_true, if_false, Run.bind_ok hmany, Run.pure_apply]
      congr 1
      omega

theorem Holds.fetch (h : Holds T s) {n : Int} (hn : 0 < n) :
    ∃ s', fetch n s = .ok (min n (T.last + 1 - s.size)) s' ∧ ReadOn T s s' ∧
      s'.size = min (s.size + n.toNat) (T.last + 1) := by
  have hsize := h.size
  rw [TokenStream.fetch, Run.get_bind, h.fetchedEof]
  by_cases hend : s.size = T.last + 1
  · refine ⟨s, ?_, h.refl, by omega⟩
    rw [if_pos (by simpa using hend), Run.pure_apply]
    congr 1
    omega
  · obtain ⟨s', hmany, hread, hsize'⟩ := h.pullMany (by omega) n.toNat
    refine ⟨s', ?_, hread, by omega⟩
    rw [if_neg (by simpa using hend), if_neg (by omega), Run.bind_ok hmany, Run.pure_apply]
    congr 1
    omega

theorem Holds.sync (h : Holds T s) (k : Nat) :
    ∃ s', sync k s = .ok (decide (k ≤ T.last)) s' ∧ ReadOn T s s' ∧
      min (k + 1) (T.last + 1) ≤ s'.size := by
  have hsize := h.size
  rw [TokenStream.sync, Run.get_bind]
  by_cases hk : k < s.size
  · refine ⟨s, ?_, h.refl, by omega⟩
    rw [if_neg (by omega), Run.pure_apply, decide_eq_true (show k ≤ T.last by omega)]
  · have hpos : (0 : Int) < k - s.size + 1 := by omega
    obtain ⟨s', hfetch, hread, hsize'⟩ := h.fetch hpos
    refine ⟨s', ?_, hread, by omega⟩
    rw [if_pos hpos, Run.bind_ok hfetch, Run.pure_apply]
    congr 1
    rw [decide_eq_decide]
    omega

theorem Holds.onChannelFrom (h : Holds T s) {fuel : Nat} (hi : i < s.size)
    (hfuel : T.last < i + fuel) :
    ∃ s', onChannelFrom 0 fuel i s = .ok (T.seek i : Int) s' ∧ ReadOn T s s' ∧
      T.seek i < s'.size := by
  have hle : i ≤ T.last := by
    have := h.size
    omega
  induction fuel generalizing s i with
  | zero => omega
  | succ fuel ih =>
    rw [TokenStream.onChannelFrom, Run.bind_ok (h.item hi)]
    rcases Tape.seek_cases hle with ⟨hv, hseek⟩ | ⟨hv, hlt, hseek⟩
    · refine ⟨s, ?_, h.refl, by omega⟩
      rw [if_pos (by simpa [Tape.visible] using hv), hseek, Run.pure_apply]
    · obtain ⟨s₁, hsync, hread, hsize⟩ := h.sync (i + 1)
      obtain ⟨s₂, hgo, hread₂, hsize₂⟩ := ih hread.toHolds (i := i + 1) (by omega) (by omega) (by omega)
      refine ⟨s₂, ?_, hread.trans hread₂, by omega⟩
      have hcast : ((i : Int) + 1) = ((i + 1 : Nat) : Int) := by omega
      rw [if_neg (by simpa [Tape.visible] using hv), hcast, Run.bind_ok hsync, hgo, hseek]

theorem Holds.remaining (h : Holds T s) : T.last + 1 ≤ s.size + s.source.remaining := by
  obtain ⟨P, hP, hfeeds⟩ := h.feeds
  have hb := hP.bound hfeeds
  rw [List.length_drop, Tape.length_raw] at hb
  have := h.size
  omega

theorem Holds.nextOnChannel (h : Holds T s) (k : Nat) :
    ∃ s', nextOnChannel k 0 s = .ok (T.seek k : Int) s' ∧ ReadOn T s s' ∧
      T.seek k < s'.size := by
  obtain ⟨s₁, hsync, hread, hsize⟩ := h.sync k
  rw [TokenStream.nextOnChannel, Run.bind_ok hsync, Run.get_bind]
  have hle := hread.size
  by_cases hk : k < s₁.size
  · have hrem := hread.toHolds.remaining
    have hfuel : T.last < k + ((-(k : Int)).toNat + s₁.size + s₁.source.remaining + 2) := by omega
    obtain ⟨s₂, hgo, hread₂, hsize₂⟩ := hread.toHolds.onChannelFrom hk hfuel
    refine ⟨s₂, ?_, hread.trans hread₂, hsize₂⟩
    rw [if_neg (by omega), hgo]
  · refine ⟨s₁, ?_, hread, ?_⟩
    · rw [if_pos (by omega), Run.pure_apply, Tape.seek_of_last_lt (by omega)]
      congr 1
      omega
    · have := Tape.seek_of_last_lt (T := T) (i := k) (by omega)
      omega

theorem Holds.settle (h : Holds T s) (k : Nat) :
    ∃ s', settle k s = .ok (T.seek k : Int) s' ∧ ReadOn T s s' ∧ T.seek k < s'.size := by
  obtain ⟨s', hnext, hread⟩ := h.nextOnChannel k
  refine ⟨s', ?_, hread⟩
  simp only [TokenStream.settle, Run.get_bind, h.channel, hnext]

theorem ReadOn.moved (h : ReadOn T s s') {k : Nat} (hk : T.seek k < s'.size) :
    On T (T.seek k) { s' with index := (T.seek k : Nat) } :=
  ⟨⟨h.channel, h.tokens, h.size, h.fetchedEof, h.feeds⟩, rfl, hk, Tape.visible_token_seek⟩

theorem at_new {source : TokenSource} (h : Feeds T.silent T.lexed T.raw source) :
    At T (T.seek 0) { source } := by
  refine .inr ⟨⟨rfl, ?_, Nat.zero_le _, ?_, h⟩, rfl, rfl, rfl⟩
  · exact List.take_zero.symm
  · exact (decide_eq_false (Nat.succ_ne_zero _).symm).symm

theorem At.start (h : At T i s) :
    ∃ s', start s = .ok ⟨⟩ s' ∧ On T i s' ∧ s.size ≤ s'.size := by
  rcases h with h | ⟨h, hindex, hsize, rfl⟩
  · refine ⟨s, ?_, h, Nat.le_refl _⟩
    have hne : s.index ≠ -1 := by
      have := h.index
      omega
    simp only [TokenStream.start, Run.get_bind, hne, if_false, Run.pure_apply]
  · obtain ⟨s₁, hsync, hread, _⟩ := h.sync 0
    obtain ⟨s₂, hsettle, hread₂, hlt⟩ := hread.toHolds.settle 0
    refine ⟨_, ?_, hread₂.moved hlt, ?_⟩
    · simp only [TokenStream.start, Run.get_bind, hindex, if_true]
      exact (Run.bind_ok hsync).trans (Run.bind_ok hsettle)
    · exact Nat.le_trans hread.grows hread₂.grows

theorem On.start (h : On T i s) : start s = .ok ⟨⟩ s := by
  have hne : s.index ≠ -1 := by
    have := h.index
    omega
  simp only [TokenStream.start, Run.get_bind, hne, if_false, Run.pure_apply]

theorem lookAhead_pos {k : Int} (hk : 0 < k) (h : On T i s) :
    lookAhead k s = (lookAhead.go 0 s.index (k - 1).toNat >>= fun i => some <$> item i) s := by
  rw [TokenStream.lookAhead, Run.bind_ok h.start, if_neg (by omega), if_neg (by omega), Run.get_bind,
    h.channel]

theorem On.lookAhead_one (h : On T i s) : lookAhead 1 s = .ok (some (T.token i)) s := by
  have hgo : lookAhead.go 0 s.index ((1 : Int) - 1).toNat s = .ok (i : Int) s := by
    rw [h.index]
    rfl
  rw [lookAhead_pos (by decide) h, Run.bind_ok hgo]
  exact Run.map_ok (h.item h.read)

theorem At.lookAhead_one (h : At T i s) :
    ∃ s', lookAhead 1 s = .ok (some (T.token i)) s' ∧ On T i s' := by
  obtain ⟨s', hstart, hon, _⟩ := h.start
  refine ⟨s', ?_, hon⟩
  have := hon.lookAhead_one
  rw [TokenStream.lookAhead, Run.bind_ok hon.start] at this
  rw [TokenStream.lookAhead, Run.bind_ok hstart, this]

theorem At.current (h : At T i s) : ∃ s', current s = .ok (T.token i) s' ∧ On T i s' := by
  obtain ⟨s', hlook, hon⟩ := h.lookAhead_one
  exact ⟨s', by rw [TokenStream.current, Run.bind_ok hlook]; rfl, hon⟩

theorem On.current (h : On T i s) : current s = .ok (T.token i) s := by
  rw [TokenStream.current, Run.bind_ok h.lookAhead_one]
  rfl

theorem On.symbol_one (h : On T i s) : symbol 1 s = .ok (T.token i).type s := by
  rw [TokenStream.symbol, Run.bind_ok h.lookAhead_one]
  rfl

theorem On.seek_eq (h : On T i s) : T.seek i = i := Tape.seek_of_visible h.le h.visible

theorem On.lookAhead_go (h : On T i s) {j : Nat} (hj : T.seek j = j) (hs : j < s.size) (k : Nat) :
    ∃ s', lookAhead.go 0 j k s = .ok (T.onward j k : Int) s' ∧ On T i s' ∧
      T.onward j k < s'.size := by
  induction k generalizing j s with
  | zero => exact ⟨s, rfl, h, hs⟩
  | succ k ih =>
    have hcast : ((j : Int) + 1) = ((j + 1 : Nat) : Int) := by omega
    obtain ⟨s₁, hsync, hread, _⟩ := h.toHolds.sync (j + 1)
    by_cases hlast : j + 1 ≤ T.last
    · obtain ⟨s₂, hnext, hread₂, hlt⟩ := hread.toHolds.nextOnChannel (j + 1)
      obtain ⟨s', hgo, hon, hlt'⟩ := ih ((h.readOn hread).readOn hread₂) Tape.seek_seek hlt
      refine ⟨s', ?_, hon, hlt'⟩
      rw [lookAhead.go, hcast, Run.bind_ok hsync, decide_eq_true hlast, if_pos rfl, Run.bind_ok hnext]
      exact hgo
    · -- at the end the place stays
      have hend : j = T.last := by
        have := Tape.le_of_seek_eq hj
        omega
      have hstay : T.seek (j + 1) = j := by
        rw [hend, Tape.seek_of_last_lt (Nat.lt_succ_self _)]
      obtain ⟨s', hgo, hon, hlt'⟩ := ih (h.readOn hread) hj (Nat.lt_of_lt_of_le hs hread.grows)
      rw [Tape.onward, hstay]
      refine ⟨s', ?_, hon, hlt'⟩
      rw [lookAhead.go, hcast, Run.bind_ok hsync, decide_eq_false hlast, if_neg Bool.false_ne_true]
      exact hgo

theorem On.lookAhead_onward (h : On T i s) (k : Nat) :
    ∃ s', lookAhead (k + 1) s = .ok (some (T.token (T.onward i k))) s' ∧ On T i s' := by
  obtain ⟨s', hgo, hon, hlt⟩ := h.lookAhead_go h.seek_eq h.read k
  refine ⟨s', ?_, hon⟩
  rw [lookAhead_pos (by omega) h, h.index, show ((k : Int) + 1 - 1).toNat = k by omega,
    Run.bind_ok hgo]
  exact Run.map_ok (hon.toHolds.item hlt)

theorem On.lookAhead_two (h : On T i s) :
    ∃ s', lookAhead 2 s = .ok (some (T.token (T.seek (i + 1)))) s' ∧ On T i s' :=
  h.lookAhead_onward 1

theorem On.symbol_two (h : On T i s) :
    ∃ s', symbol 2 s = .ok (T.token (T.seek (i + 1))).type s' ∧ On T i s' := by
  obtain ⟨s', hlook, hon⟩ := h.lookAhead_two
  exact ⟨s', by rw [TokenStream.symbol, Run.bind_ok hlook]; rfl, hon⟩

/-- The nearest position at or before another whose token is on the default channel, by the list of
the tokens before it. -/
theorem Holds.previousOnChannel (h : Holds T s) {k : Nat} (hk : k < s.size) :
    ∃ j : Int, TokenStream.previousOnChannel k 0 s = .ok j s ∧ j ≤ k ∧
      ((j < 0 ∧ T.behind (k + 1) = []) ∨
        ∃ n : Nat, j = n ∧ n ≤ k ∧ T.behind (k + 1) = T.token n :: T.behind n) := by
  have hsize := h.size
  rw [TokenStream.previousOnChannel, if_neg (by omega), Int.toNat_natCast]
  induction k with
  | zero =>
    have hitem : TokenStream.item 0 s = .ok (T.token 0) s := h.item hk
    rw [previousOnChannel.go, Run.bind_ok hitem, Tape.behind_succ (Nat.zero_le _)]
    by_cases hc : (T.token 0).channel = 0
    · rw [if_pos hc, if_pos hc]
      exact ⟨0, rfl, Int.le_refl _, .inr ⟨0, rfl, Nat.le_refl _, rfl⟩⟩
    · rw [if_neg hc, if_neg hc]
      exact ⟨-1, rfl, by omega, .inl ⟨by omega, rfl⟩⟩
  | succ k ih =>
    rw [previousOnChannel.go, Run.bind_ok (h.item hk), Tape.behind_succ (by omega)]
    by_cases hc : (T.token (k + 1)).channel = 0
    · rw [if_pos hc, if_pos hc]
      exact ⟨_, rfl, Int.le_refl _, .inr ⟨k + 1, rfl, Nat.le_refl _, rfl⟩⟩
    · obtain ⟨j, hgo, hj, hcases⟩ := ih (by omega)
      rw [if_neg hc, if_neg hc]
      refine ⟨j, hgo, by omega, ?_⟩
      rcases hcases with hnone | ⟨n, hn, hle, hbehind⟩
      · exact .inl hnone
      · exact .inr ⟨n, hn, by omega, hbehind⟩

theorem lookBack_go_neg {j : Int} (hj : j < 0) (k : Nat) :
    ∃ r : Int, lookBack.go 0 j k s = .ok r s ∧ r < 0 := by
  induction k generalizing j with
  | zero => exact ⟨j, rfl, hj⟩
  | succ k ih =>
    obtain ⟨r, hgo, hr⟩ := ih (j := j - 1) (by omega)
    refine ⟨r, ?_, hr⟩
    have hprev : TokenStream.previousOnChannel (j - 1) 0 s = .ok (j - 1) s := by
      rw [TokenStream.previousOnChannel, if_pos (by omega)]
      rfl
    rw [lookBack.go, Run.bind_ok hprev, hgo]

theorem Holds.lookBack_go (h : Holds T s) {j : Nat} (hj : j ≤ s.size) (k : Nat) :
    ∃ r : Int, lookBack.go 0 j (k + 1) s = .ok r s ∧
      ((r < 0 ∧ (T.behind j)[k]? = none) ∨
        ∃ n : Nat, r = n ∧ n < s.size ∧ (T.behind j)[k]? = some (T.token n)) := by
  induction k generalizing j with
  | zero =>
    cases j with
    | zero =>
      have hprev : TokenStream.previousOnChannel (((0 : Nat) : Int) - 1) 0 s = .ok (-1) s := by
        rw [TokenStream.previousOnChannel, if_pos (by omega)]
        rfl
      exact ⟨-1, by rw [lookBack.go, Run.bind_ok hprev]; rfl, .inl ⟨by omega, rfl⟩⟩
    | succ j =>
      obtain ⟨r, hprev, hr, hcases⟩ := h.previousOnChannel (k := j) (by omega)
      rw [show ((j : Nat) : Int) = ((j + 1 : Nat) : Int) - 1 by omega] at hprev
      refine ⟨r, by rw [lookBack.go, Run.bind_ok hprev]; rfl, ?_⟩
      rcases hcases with ⟨hneg, hnil⟩ | ⟨n, rfl, hle, hcons⟩
      · exact .inl ⟨hneg, by rw [hnil]; rfl⟩
      · exact .inr ⟨n, rfl, by omega, by rw [hcons]; rfl⟩
  | succ k ih =>
    cases j with
    | zero =>
      obtain ⟨r, hgo, hr⟩ := lookBack_go_neg (s := s) (j := -1) (by omega) (k + 1)
      have hprev : TokenStream.previousOnChannel (((0 : Nat) : Int) - 1) 0 s = .ok (-1) s := by
        rw [TokenStream.previousOnChannel, if_pos (by omega)]
        rfl
      exact ⟨r, by rw [lookBack.go, Run.bind_ok hprev, hgo], .inl ⟨hr, rfl⟩⟩
    | succ j =>
      obtain ⟨r, hprev, hr, hcases⟩ := h.previousOnChannel (k := j) (by omega)
      rw [show ((j : Nat) : Int) = ((j + 1 : Nat) : Int) - 1 by omega] at hprev
      rcases hcases with ⟨hneg, hnil⟩ | ⟨n, rfl, hle, hcons⟩
      · obtain ⟨r', hgo, hr'⟩ := lookBack_go_neg (s := s) hneg (k + 1)
        exact ⟨r', by rw [lookBack.go, Run.bind_ok hprev, hgo], .inl ⟨hr', by rw [hnil]; rfl⟩⟩
      · obtain ⟨r', hgo, hcases'⟩ := ih (j := n) (by omega)
        refine ⟨r', by rw [lookBack.go, Run.bind_ok hprev, hgo], ?_⟩
        rw [hcons, List.getElem?_cons_succ]
        exact hcases'

theorem On.lookBack (h : On T i s) (k : Nat) :
    lookAhead (-(k + 1)) s = .ok (T.behind i)[k]? s := by
  have hneg : (-((k : Int) + 1)) < 0 := by omega
  rw [TokenStream.lookAhead, Run.bind_ok h.start, if_neg (by omega), if_pos hneg,
    show -(-((k : Int) + 1)) = (k : Int) + 1 by omega, TokenStream.lookBack, Run.get_bind, h.channel]
  simp only [h.index]
  by_cases hshort : (k : Int) + 1 = 0 ∨ (i : Int) - ((k : Int) + 1) < 0
  · have hnone : (T.behind i)[k]? = none := by
      have := Tape.length_behind_le (T := T) i
      rw [List.getElem?_eq_none_iff]
      omega
    rw [if_pos hshort, hnone]
    rfl
  · obtain ⟨r, hgo, hcases⟩ := h.toHolds.lookBack_go (Nat.le_of_lt h.read) k
    rw [if_neg hshort, show ((k : Int) + 1).toNat = k + 1 by omega, Run.bind_ok hgo]
    rcases hcases with ⟨hr, hnone⟩ | ⟨n, rfl, hn, hsome⟩
    · rw [if_pos hr, hnone]
      rfl
    · rw [if_neg (by omega), hsome]
      exact Run.map_ok (h.toHolds.item hn)

theorem On.lookAhead_back (h : On T i s) : ∃ t, lookAhead (-1) s = .ok t s := ⟨_, h.lookBack 0⟩

theorem On.inside (h : On T i s) (hi : i < T.last) :
    s.index ≥ 0 ∧ if s.fetchedEof = true then s.index < (s.size : Int) - 1 else s.index < s.size := by
  have hread := h.read
  refine ⟨by rw [h.index]; omega, ?_⟩
  rw [h.fetchedEof, h.index]
  split
  · next hend =>
    have := of_decide_eq_true hend
    omega
  · omega

theorem On.consume (h : On T i s) (hi : i < T.last) :
    ∃ s', consume s = .ok ⟨⟩ s' ∧ On T (T.seek (i + 1)) s' := by
  have hread := h.read
  obtain ⟨s₁, hsync, hread₁, _⟩ := h.sync (i + 1)
  obtain ⟨s₂, hsettle, hread₂, hlt⟩ := hread₁.toHolds.settle (i + 1)
  refine ⟨_, ?_, hread₂.moved hlt⟩
  have hinside := h.inside hi
  have hcast : ((i : Int) + 1) = ((i + 1 : Nat) : Int) := by omega
  rw [TokenStream.consume, Run.get_bind]
  dsimp only
  rw [decide_eq_true hinside, Bool.not_true, if_neg Bool.false_ne_true, Run.get_bind, h.index, hcast,
    Run.bind_ok hsync, if_pos (decide_eq_true (show i + 1 ≤ T.last from hi)),
    Run.bind_ok hsettle]
  rfl

theorem On.seek (h : On T i s) (k : Nat) :
    ∃ s', seek k s = .ok ⟨⟩ s' ∧ On T (T.seek k) s' := by
  obtain ⟨s₁, hsettle, hread, hlt⟩ := h.settle k
  refine ⟨_, ?_, hread.moved hlt⟩
  rw [TokenStream.seek, Run.bind_ok h.start, Run.bind_ok hsettle]
  rfl

theorem On.tokenAt (h : On T i s) {k : Nat} (hk : k < s.size) :
    tokenAt k s = .ok (T.token k) s := by
  rw [TokenStream.tokenAt, Run.bind_ok h.start, h.toHolds.item hk]

theorem On.fill (h : On T i s) :
    ∃ s', fill s = .ok ⟨⟩ s' ∧ On T i s' ∧ s'.size = T.last + 1 := by
  have hsize := h.size
  rw [TokenStream.fill, Run.bind_ok h.start, Run.get_bind, h.fetchedEof]
  by_cases hend : s.size = T.last + 1
  · exact ⟨s, by simp [hend], h, hend⟩
  · have hrem := h.toHolds.remaining
    obtain ⟨s', hmany, hread, hsize'⟩ := h.toHolds.pullMany (by omega) (s.source.remaining + 1)
    refine ⟨s', ?_, h.readOn hread, by omega⟩
    rw [if_pos (by simpa using hend), Run.bind_ok hmany]
    rfl

theorem Holds.textOfSpan_go (h : Holds T s) (hT : T.Spelled) (hs : s.size = T.last + 1) {n : Nat}
    (hn : i + n ≤ T.last + 1) (acc : String) :
    ∃ text, textOfSpan.go (i : Int) acc n s = .ok text s := by
  induction n generalizing i acc with
  | zero => exact ⟨acc, rfl⟩
  | succ n ih =>
    rw [textOfSpan.go, Run.bind_ok (h.item (by omega)), Tape.isEof_token (by omega)]
    by_cases hlast : i = T.last
    · exact ⟨acc, by simp [hlast]⟩
    · obtain ⟨text, htext⟩ := hT.text_token (i := i) (by omega)
      obtain ⟨all, hall⟩ := ih (i := i + 1) (by omega) (acc ++ text)
      refine ⟨all, ?_⟩
      simp only [hlast, decide_false, Bool.false_eq_true, if_false, htext, Run.ofExcept_ok_bind]
      rw [show ((i : Int) + 1) = ((i + 1 : Nat) : Int) by omega, hall]

theorem On.textBetween (h : On T i s) (hT : T.Spelled) {a b : Nat} (ha : a ≤ T.last)
    (hb : b ≤ T.last) :
    ∃ text s', textBetween (T.token a) (T.token b) s = .ok text s' ∧ On T i s' := by
  obtain ⟨s', hfill, hon, hsize⟩ := h.fill
  rw [TokenStream.textBetween, Run.bind_ok hfill, TokenStream.textOfSpan, Tape.index_token ha,
    Tape.index_token hb]
  by_cases hab : b < a
  · exact ⟨"", s', by rw [if_pos (by omega)]; rfl, hon⟩
  · obtain ⟨text, htext⟩ := hon.toHolds.textOfSpan_go hT hsize (i := a) (n := b - a + 1) (by omega) ""
    refine ⟨text, s', ?_, hon⟩
    rw [if_neg (by omega), show ((b : Int) - a + 1).toNat = b - a + 1 by omega, htext]

end TokenStream

end Throbac
