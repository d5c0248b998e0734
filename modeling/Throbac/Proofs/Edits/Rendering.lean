import Throbac.TokenEdits
import Throbac.Proofs.Run
import Throbac.Proofs.Stream.Tape
import Mathlib.Data.List.Nodup

/-!
# Writing out an edit program

A program whose edits stand at different places is written out in one pass over the tokens. What it
adds at each position is given by a function from positions to texts.
-/
namespace Throbac

/-- A stream that was read to its end. -/
structure TokenStream.Full (T : Tape) (s : TokenStream) : Prop where
  tokens : s.tokens.toList = T.tokens
  started : s.index ≠ -1
  ended : s.fetchedEof = true

/-- The text of a token as it is written; the end of the input has none. -/
def Tape.word (T : Tape) (i : Nat) : String := if i < T.last then (T.token i).text.getD "" else ""

def joined (f : Nat → String) (i n : Nat) : String := String.join ((List.range' i n).map f)

@[simp] theorem joined_zero (f : Nat → String) (i : Nat) : joined f i 0 = "" := rfl

theorem joined_succ (f : Nat → String) (i n : Nat) :
    joined f i (n + 1) = f i ++ joined f (i + 1) n := by
  simp [joined, List.range'_succ]

theorem joined_skip {f : Nat → String} {i k : Nat} (h : ∀ j, i ≤ j → j < i + k → f j = "") (n : Nat) :
    joined f i (k + n) = joined f (i + k) n := by
  induction k generalizing i with
  | zero => rw [Nat.zero_add, Nat.add_zero]
  | succ k ih =>
    rw [Nat.add_right_comm, joined_succ, h i (Nat.le_refl i) (by omega), String.empty_append,
      ih fun j hj hk => h j (by omega) (by omega), Nat.add_assoc, Nat.add_comm 1 k]

namespace TokenStream.Full

variable {T : Tape} {s : TokenStream} {i : Nat}

theorem size_eq (h : Full T s) : s.size = T.last + 1 := by
  rw [size, ← Array.length_toList, h.tokens, Tape.length_tokens]

theorem item (h : Full T s) (hi : i ≤ T.last) : item i s = .ok (T.token i) s := by
  have hsize : i < s.tokens.size := by
    have := h.size_eq
    rw [size] at this
    omega
  have hget : s.tokens[i]? = some (T.token i) := by
    rw [← Array.getElem?_toList, h.tokens, Tape.tokens_getElem? hi]
  simp only [TokenStream.item, Run.get_bind, Sequence.arrayAt, Sequence.arrayAt?,
    Sequence.resolve?_natCast hsize, Option.bind_some, hget, Run.ofExcept_ok]

theorem start (h : Full T s) : start s = .ok ⟨⟩ s := by
  rw [TokenStream.start, Run.get_bind, if_neg h.started]
  rfl

theorem textOfSpan_go (h : Full T s) (hT : T.Spelled) {n : Nat} (hn : i + n ≤ T.last + 1)
    (acc : String) : textOfSpan.go (i : Int) acc n s = .ok (acc ++ joined T.word i n) s := by
  induction n generalizing i acc with
  | zero => simp [textOfSpan.go]
  | succ n ih =>
    rw [textOfSpan.go, Run.bind_ok (h.item (by omega)), Tape.isEof_token (by omega), joined_succ,
      Tape.word]
    by_cases hlast : i = T.last
    · obtain rfl : n = 0 := by omega
      simp [hlast]
    · obtain ⟨text, htext⟩ := hT.text_token (i := i) (by omega)
      have hword : (T.token i).text = some text := by
        unfold Token.textOrFault at htext
        split at htext <;> cases htext
        assumption
      simp only [hlast, decide_false, Bool.false_eq_true, if_false, htext, Run.ofExcept_ok_bind]
      rw [show (i : Int) + 1 = (i + 1 : Nat) by omega, ih (by omega), if_pos (by omega), hword,
        Option.getD_some, String.append_assoc]

theorem text (h : Full T s) (hT : T.Spelled) :
    text (some 0) (some T.last) s = .ok (joined T.word 0 (T.last + 1)) s := by
  have hfill : fill s = .ok ⟨⟩ s := by
    rw [fill, Run.bind_ok h.start, Run.get_bind, h.ended]
    rfl
  have hgo := h.textOfSpan_go hT (i := 0) (n := T.last + 1) (by omega) ""
  rw [TokenStream.text, Run.bind_ok hfill, Run.get_bind, h.size_eq]
  simp only [Option.getD_some]
  rw [if_neg (by omega), textOfSpan, if_neg (by omega),
    show ((T.last : Int) - 0 + 1).toNat = T.last + 1 by omega]
  simpa using hgo

end TokenStream.Full

def lettersTape : Tape where
  body := ["a", "b", "c"].map fun w => { type := 37, given := some w }
  ending := { type := Symbol.eof, given := some "<EOF>" }
  silent := true
  body_isEof := by decide
  ending_isEof := rfl

def lettersStream : TokenStream :=
  { source := .list { tokens := #[] }, tokens := lettersTape.tokens.toArray, index := 0,
    fetchedEof := true }

theorem lettersStream_full : lettersStream.Full lettersTape := ⟨rfl, by decide, rfl⟩

theorem lettersTape_spelled : lettersTape.Spelled := by simp [Tape.Spelled, lettersTape, Token.text]

namespace TokenEdits

variable {T : Tape} {s s' : TokenEdits} {f : Nat → String} {table : List (Int × Edit)} {i : Nat}
  {stops : Nat → Prop}

/-- The edits of the default program, with the gaps that dropped ones left. -/
def listing (s : TokenEdits) : List (Option Edit) := (s.program "default").toList

@[simp] theorem listing_setProgram (p : EditProgram) :
    (s.setProgram "default" p).listing = p.toList := by
  simp [listing, program, setProgram]

theorem forM_range_succ (m : Nat → EditM Unit) (n : Nat) :
    (List.range (n + 1)).forM m = (List.range n).forM m >>= fun _ => m n := by
  rw [List.range_succ]
  induction List.range n with
  | nil => simp [List.forM]
  | cons i l ih => simp [List.forM]

theorem getElem?_program : (s.program "default")[i]? = s.listing[i]? :=
  (Array.getElem?_toList ..).symm

theorem tokenText_eq (h : s.stream.Full T) (hT : T.Spelled) (hi : i ≤ T.last) :
    tokenText i s = .ok (T.word i) s := by
  have htoken : ofStream (TokenStream.tokenAt i) s = .ok (T.token i) s := by
    rw [ofStream, TokenStream.tokenAt, Run.bind_ok h.start, h.item hi]
  rw [tokenText, Run.bind_ok htoken, Tape.isEof_token hi, Tape.word]
  by_cases hlast : i = T.last
  · simp [hlast]
  · obtain ⟨text, htext⟩ := hT.text_token (i := i) (by omega)
    unfold Token.textOrFault at htext
    split at htext <;> cases htext
    rename_i hword
    simp [hlast, hword, written, show i < T.last by omega]

def editAt (table : List (Int × Edit)) (i : Nat) : Option Edit := table.lookup (i : Int)

/-- What a table of edits adds at each position that writing stops at, the first of which is `0`: the
text of the token without an edit, an insertion in front of it, or the text of a replacement for all
of its tokens. -/
def Lays (T : Tape) (table : List (Int × Edit)) (f : Nat → String) (stops : Nat → Prop) : Prop :=
  stops 0 ∧ ∀ i ≤ T.last, stops i → (editAt table i = none ∧ f i = T.word i ∧ stops (i + 1)) ∨
    (∃ e a, editAt table i = some e ∧ e.isInsert = true ∧ e.index = i ∧ e.text = some a ∧
      f i = a ++ T.word i ∧ stops (i + 1)) ∨
    ∃ e k, editAt table i = some e ∧ e.kind = .replace (i + k : Nat) ∧ i + k ≤ T.last ∧
      f i = e.text.getD "" ∧ (∀ j, i < j → j ≤ i + k → f j = "" ∧ editAt table j = none) ∧
      stops (i + 1 + k)

def tabled (es : List Edit) : List (Int × Edit) := es.map fun e => (e.index, e)

theorem editAt_tabled {es : List Edit} (h : (es.map Edit.index).Nodup) {e : Edit} :
    editAt (tabled es) i = some e ↔ e ∈ es ∧ e.index = i := by
  rw [editAt, List.lookup_eq_some_iff]
  constructor
  · rintro ⟨l, r, hsplit, -⟩
    have hmem : ((i : Int), e) ∈ tabled es := by simp [hsplit]
    obtain ⟨e', he, heq⟩ := List.mem_map.1 hmem
    obtain ⟨hi, rfl⟩ := Prod.mk.inj heq
    exact ⟨he, hi⟩
  · rintro ⟨he, hi⟩
    obtain ⟨l, r, rfl⟩ := List.append_of_mem he
    refine ⟨tabled l, tabled r, by simp [tabled, hi], fun p hp => ?_⟩
    obtain ⟨e', he', rfl⟩ := List.mem_map.1 hp
    rw [List.map_append, List.nodup_append] at h
    have hne := h.2.2 _ (List.mem_map_of_mem he') e.index (by simp)
    simpa using fun hi' => hne (hi'.symm.trans hi.symm)

theorem editAt_tabled_eq_none {es : List Edit} :
    editAt (tabled es) i = none ↔ ∀ e ∈ es, e.index ≠ i := by
  rw [editAt, List.lookup_eq_none_iff, tabled, List.forall_mem_map]
  simp only [bne_iff_ne, ne_comm]

theorem onePerIndex_eq (es : List Edit) :
    onePerIndex es = if (es.map Edit.index).Nodup then .ok (tabled es)
      else .error .twoEditsAtOneIndex := by
  have hall : ∀ done : List Edit, (done.map Edit.index).Nodup →
      es.foldlM (fun table e => if (table.lookup e.index).isSome then .error .twoEditsAtOneIndex
        else .ok (table ++ [(e.index, e)])) (tabled done) =
        if ((done ++ es).map Edit.index).Nodup then Except.ok (tabled (done ++ es))
        else .error Fault.twoEditsAtOneIndex := by
    induction es with
    | nil =>
      intro done h
      rw [List.append_nil, if_pos h]
      rfl
    | cons e es ih =>
      intro done h
      have hsome : ((tabled done).lookup e.index).isSome = true ↔ e.index ∈ done.map Edit.index := by
        simp only [List.lookup_isSome_iff, tabled, List.mem_map, beq_iff_eq]
        constructor
        · rintro ⟨_, ⟨d, hd, rfl⟩, he⟩
          exact ⟨d, hd, he.symm⟩
        · rintro ⟨d, hd, he⟩
          exact ⟨_, ⟨d, hd, rfl⟩, he.symm⟩
      by_cases he : e.index ∈ done.map Edit.index
      · rw [List.foldlM_cons, if_pos (hsome.2 he), if_neg]
        · rfl
        · rw [List.map_append, List.nodup_append]
          exact fun h => h.2.2 _ he e.index (by simp) rfl
      · have hdone : ((done ++ [e]).map Edit.index).Nodup := by
          rw [List.map_append, List.nodup_append]
          refine ⟨h, List.nodup_singleton _, fun a ha b hb => ?_⟩
          rw [List.map_singleton, List.mem_singleton] at hb
          exact fun hab => he (hb ▸ hab ▸ ha)
        have htable : tabled done ++ [(e.index, e)] = tabled (done ++ [e]) := by simp [tabled]
        rw [List.foldlM_cons, if_neg (fun h => he (hsome.1 h)), htable]
        exact (ih _ hdone).trans (by rw [List.append_assoc, List.singleton_append])
  simpa [onePerIndex, tabled] using hall [] List.nodup_nil

theorem nodup_index_iff {l : List (Option Edit)} : ((l.filterMap id).map Edit.index).Nodup ↔
    ∀ (q r : Nat) (e e' : Edit), q < r → l[q]? = some (some e) → l[r]? = some (some e') →
      e.index ≠ e'.index := by
  rw [List.Nodup, List.pairwise_map, List.pairwise_filterMap, List.pairwise_iff_getElem]
  constructor
  · intro h q r e e' hqr hq hr
    obtain ⟨hq', hq⟩ := List.getElem?_eq_some_iff.1 hq
    obtain ⟨hr', hr⟩ := List.getElem?_eq_some_iff.1 hr
    exact h q r hq' hr' hqr e hq e' hr
  · intro h q r hq hr hqr e he e' he'
    exact h q r e e' hqr (List.getElem?_eq_some_iff.2 ⟨hq, he⟩)
      (List.getElem?_eq_some_iff.2 ⟨hr, he'⟩)

def onwards (table : List (Int × Edit)) (i : Nat) : List (Int × Edit) :=
  table.filter fun p => decide ((i : Int) ≤ p.1)

theorem lookup_onwards : (onwards table i).lookup (i : Int) = editAt table i := by
  rw [editAt]
  induction table with
  | nil => rfl
  | cons p table ih =>
    obtain ⟨k, e⟩ := p
    unfold onwards at ih ⊢
    by_cases hk : (i : Int) = k
    · simp [hk]
    · have hne : ((i : Int) == k) = false := by simpa using hk
      by_cases hle : (i : Int) ≤ k <;> simp [List.lookup_cons, hne, hle, ih]

theorem onwards_filter : (onwards table i).filter (·.1 ≠ (i : Int)) = onwards table (i + 1) := by
  rw [onwards, onwards, List.filter_filter]
  refine List.filter_congr fun p _ => ?_
  rw [← Bool.decide_and, decide_eq_decide]
  omega

theorem onwards_skip {k : Nat} (h : ∀ j, i ≤ j → j < i + k → editAt table j = none) :
    onwards table i = onwards table (i + k) := by
  refine List.filter_congr fun p hp => ?_
  have hout : ∀ j : Nat, i ≤ j → j < i + k → (j : Int) ≠ p.1 := fun j hj hk => by
    simpa using List.lookup_eq_none_iff.1 (h j hj hk) p hp
  by_contra hne
  exact hout p.1.toNat (by grind) (by grind) (by grind)

theorem render_eq (h : s.stream.Full T) (hT : T.Spelled) (hl : Lays T table f stops) (hi : stops i)
    {k fuel : Nat}
    (hk : i + k = T.last + 1) (hfuel : k < fuel) (acc : String) :
    render T.last fuel i acc (onwards table i) s =
      .ok (acc ++ joined f i k, onwards table (T.last + 1)) s := by
  induction k using Nat.strongRecOn generalizing i fuel acc with
  | _ k ih =>
    obtain ⟨fuel, rfl⟩ : ∃ n, fuel = n + 1 := ⟨fuel - 1, by omega⟩
    rw [render, Run.get_bind, h.size_eq]
    cases k with
    | zero =>
      obtain rfl : i = T.last + 1 := by omega
      rw [if_pos (by omega)]
      simp
    | succ k =>
      rw [if_neg (by omega), lookup_onwards]
      rcases hl.2 i (by omega) hi with ⟨hnone, hf, hi⟩ |
        ⟨e, a, he, hins, hindex, htext, hf, hi⟩ | ⟨e, n, he, hkind, hn, hf, hgap, hi⟩
      · have hskip : onwards table i = onwards table (i + 1) := onwards_skip (k := 1) fun j hj hk => by
          rwa [show j = i by omega]
        rw [hnone]
        simp only
        rw [Run.bind_ok (tokenText_eq h hT (by omega)), hskip, show (i : Int) + 1 = (i + 1 : Nat) by omega,
          ih k (by omega) hi (by omega) (by omega), joined_succ, hf, String.append_assoc]
      · have hwritten : written e.text s = .ok a s := by rw [htext]; rfl
        have hrest : (do
            let acc := acc ++ (← written e.text)
            render T.last fuel ((i : Int) + 1) (acc ++ (← tokenText e.index)) (onwards table (i + 1)))
              s = .ok (acc ++ joined f i (k + 1), onwards table (T.last + 1)) s := by
          rw [Run.bind_ok hwritten, hindex, Run.bind_ok (tokenText_eq h hT (by omega)),
            show (i : Int) + 1 = (i + 1 : Nat) by omega, ih k (by omega) hi (by omega) (by omega),
            joined_succ, hf]
          simp only [String.append_assoc]
        rw [he]
        simp only [onwards_filter]
        cases hkind : e.kind with
        | before => exact hrest
        | after => exact hrest
        | replace last => simp [Edit.isInsert, hkind] at hins
      · rw [he]
        simp only [onwards_filter, hkind]
        have hskip : onwards table (i + 1) = onwards table (i + 1 + n) :=
          onwards_skip fun j hj hj' => (hgap j (by omega) (by omega)).2
        have htail : joined f (i + 1) k = joined f (i + 1 + n) (k - n) := by
          rw [← joined_skip (i := i + 1) (k := n) fun j hj hj' => (hgap j (by omega) (by omega)).1,
            Nat.add_sub_cancel' (by omega)]
        rw [hskip, show ((i + n : Nat) : Int) + 1 = (i + 1 + n : Nat) by omega,
          ih (k - n) (by omega) hi (by omega) (by omega), joined_succ, hf, htail, String.append_assoc]

theorem foldlM_written {l : List (Int × Edit)} {n : Int}
    (h : ∀ p ∈ l, n - 1 ≤ p.2.index ∧ p.2.text.isSome = true) (acc : String) :
    (l.foldlM (fun acc (p : Int × Edit) => do
      if p.2.index ≥ n - 1 then return acc ++ (← written p.2.text) else return acc) acc : EditM String)
      s = .ok (acc ++ String.join (l.map (·.2.text.getD ""))) s := by
  induction l generalizing acc with
  | nil => simp
  | cons p l ih =>
    obtain ⟨hindex, htext⟩ := h p List.mem_cons_self
    obtain ⟨a, ha⟩ := Option.isSome_iff_exists.1 htext
    have hstep : (do if p.2.index ≥ n - 1 then return acc ++ (← written p.2.text) else return acc :
        EditM String) s = .ok (acc ++ a) s := by
      rw [if_pos hindex, ha]
      rfl
    rw [List.foldlM_cons, Run.bind_ok hstep, ih fun q hq => h q (List.mem_cons_of_mem p hq)]
    simp [ha, String.append_assoc]

theorem defaultText_eq (h : s.stream.Full T) (hT : T.Spelled) (hne : s.listing ≠ [])
    (hr : reduce "default" s = .ok table s') (hs : s'.stream = s.stream)
    (hl : Lays T table f stops)
    (hpos : ∀ p ∈ table, 0 ≤ p.1)
    (hend : ∀ p ∈ onwards table (T.last + 1), (T.last : Int) ≤ p.2.index ∧ p.2.text.isSome = true) :
    defaultText s = .ok (joined f 0 (T.last + 1) ++
      String.join ((onwards table (T.last + 1)).map (·.2.text.getD ""))) s' := by
  have hfull : s'.stream.Full T := hs ▸ h
  have hempty : (s.program "default").isEmpty = false := by
    rw [Array.isEmpty_eq_false_iff]
    exact fun he => hne (by rw [listing, he])
  have hrender := render_eq hfull hT hl hl.1 (i := 0) (k := T.last + 1) (by omega)
    (show T.last + 1 < T.last + 2 by omega) ""
  have hall : onwards table 0 = table := List.filter_eq_self.2 fun p hp => by simpa using hpos p hp
  have hfold := foldlM_written (s := s') (l := onwards table (T.last + 1)) (n := (T.last : Int) + 1)
    (fun p hp => by simpa using hend p hp) (joined f 0 (T.last + 1))
  rw [hall, String.empty_append] at hrender
  have hlast : ((T.last + 1 : Nat) : Int) - 1 = T.last := by omega
  rw [defaultText, Run.get_bind, text, Run.get_bind, Run.get_bind, hempty, h.size_eq]
  simp only [Bool.false_eq_true, if_false, hlast, Int.min_self, Int.max_self]
  rw [Run.bind_ok hr, show ((T.last + 1 : Nat) : Int).toNat + 1 = T.last + 2 by omega]
  refine (Run.bind_ok hrender).trans ?_
  simpa using hfold

theorem defaultText_nil (h : s.stream.Full T) (hT : T.Spelled) (hnil : s.listing = []) :
    defaultText s = .ok (joined T.word 0 (T.last + 1)) s := by
  have hprogram : s.program "default" = #[] := Array.toList_eq_nil_iff.1 hnil
  have hlast : ((T.last + 1 : Nat) : Int) - 1 = T.last := by omega
  rw [defaultText, Run.get_bind, TokenEdits.text, Run.get_bind, Run.get_bind, hprogram, h.size_eq,
    hlast]
  simp only [List.isEmpty_toArray, List.isEmpty_nil, if_true, Int.min_self, Int.max_self]
  rw [ofStream, h.text hT]

end TokenEdits

end Throbac
