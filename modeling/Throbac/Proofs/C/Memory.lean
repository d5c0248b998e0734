import Throbac.Proofs.C.Strings

/-!
# The memory of the string functions

Cutting a piece out of a string, step by step: four tests, a request for memory, a copy that goes on
until it has its bytes or meets a null, and a null behind the copy. A step outside a block ends the
run apart from an abort. No run ends so: where the tests let a piece through it lies inside the
string, and every cell of the memory asked for is written, none besides.
-/
namespace Throbac

/-- How a run ends without a result. -/
inductive Trap
  /-- The program gives up. -/
  | abort
  /-- The program reads or writes outside a block. -/
  | outside
  deriving DecidableEq, Repr

/-- Memory that was asked for. A cell holds nothing until it is written. -/
abbrev Block := List (Option UInt8)

namespace Block

def store (b : Block) (i : Int) (x : UInt8) : Except Trap Block :=
  if 0 ≤ i ∧ i < b.length then .ok (b.set i.toNat (some x)) else .error .outside

def load (src : List UInt8) (i : Int) : Except Trap UInt8 :=
  if 0 ≤ i then
    match src[i.toNat]? with
    | some x => .ok x
    | none => .error .outside
  else .error .outside

def clear (i : Int) : Nat → Block → Except Trap Block
  | 0, b => .ok b
  | n + 1, b => do
    let b ← b.store i 0
    clear (i + 1) n b

/-- Writes so many cells with the bytes of a string. Behind a null nothing is read, and the cells left
get nulls. -/
def copy (src : List UInt8) (i j : Int) : Nat → Block → Except Trap Block
  | 0, b => .ok b
  | n + 1, b => do
    let x ← load src i
    let b ← b.store j x
    if x = 0 then clear (j + 1) n b else copy src (i + 1) (j + 1) n b

variable {b : Block} {src bytes : List UInt8} {i j n : Nat} {x : UInt8}

theorem store_eq (h : j < b.length) : b.store j x = .ok (b.set j (some x)) := by
  rw [store, if_pos ⟨Int.natCast_nonneg j, Int.ofNat_lt.2 h⟩, Int.toNat_natCast]

theorem load_eq (h : src[i]? = some x) : load src i = .ok x := by
  rw [load, if_pos (Int.natCast_nonneg i), Int.toNat_natCast, h]

/-- A copy that stays inside both blocks and meets no null writes the bytes it was sent for, and
leaves the other cells. -/
theorem copy_eq (hnull : ∀ x ∈ bytes, x ≠ 0) (hsrc : i + n ≤ bytes.length) (hdst : j + n ≤ b.length) :
    copy (bytes ++ [0]) i j n b =
      .ok (b.take j ++ (((bytes.drop i).take n).map some ++ b.drop (j + n))) := by
  induction n generalizing i j b with
  | zero => simp [copy]
  | succ n ih =>
    have hi : i < bytes.length := by omega
    have hload : load (bytes ++ [0]) i = .ok bytes[i] := by
      refine load_eq ?_
      rw [List.getElem?_append_left hi, List.getElem?_eq_getElem hi]
    have hcopy : copy (bytes ++ [0]) i j (n + 1) b =
        copy (bytes ++ [0]) (i + 1 : Nat) (j + 1 : Nat) n (b.set j (some bytes[i])) := by
      rw [copy, hload]
      change (b.store j bytes[i] >>= _) = _
      rw [store_eq (by omega)]
      change (if bytes[i] = 0 then _ else _) = _
      rw [if_neg (hnull _ (List.getElem_mem hi))]
      rfl
    rw [hcopy, ih (by omega) (by rw [List.length_set]; omega)]
    -- the cell at `j` is the last of those already written
    have htake : (b.set j (some bytes[i])).take (j + 1) = b.take j ++ [some bytes[i]] := by
      have hj : j < (b.set j (some bytes[i])).length := by
        rw [List.length_set]
        omega
      rw [List.take_succ_eq_append_getElem hj, List.getElem_set_self, List.take_set_of_le (Nat.le_refl j)]
    have hdrop : (b.set j (some bytes[i])).drop (j + 1 + n) = b.drop (j + (n + 1)) := by
      rw [List.drop_set_of_lt (by omega), Nat.add_assoc, Nat.add_comm 1 n]
    rw [htake, hdrop, List.drop_eq_getElem_cons hi, List.take_succ_cons, List.map_cons, List.append_assoc]
    rfl

end Block

namespace CString

/-- Cuts out the piece of the length from a start. The sizes for which there is memory are given. -/
def cutOut (s : CString) (room : UInt64 → Bool) (start length : Int32) : Except Trap Block :=
  if start < 0 ∨ start > length ∨ widen length > s.size - 1 ∨ widen (start + length) > s.size then
    .error .abort
  else
    let size := widen (length + 1)
    if room size then do
      let block ← Block.copy (s.bytes ++ [0]) start.toInt 0 (widen length).toNat
        (List.replicate size.toNat none)
      block.store length.toInt 0
    else .error .abort

variable {s : CString} {start length : Int32}

theorem toInt_add_cases (hstart : 0 ≤ start.toInt) (hlength : 0 ≤ length.toInt) :
    (start + length).toInt = start.toInt + length.toInt ∨ (start + length).toInt < 0 := by
  have h₁ := start.toInt_lt
  have h₂ := length.toInt_lt
  rw [Int32.toInt_add, Int.bmod_def]
  omega

theorem lt_toNat_widen {n : Int32} (h : n.toInt < 0) : 2147483648 ≤ (widen n).toNat := by
  have hge := n.le_toInt
  have hwide : n.toInt64.toInt = n.toInt := n.toInt_toInt64
  have hword : n.toInt64.toInt =
      if 2 * (widen n).toNat < 2 ^ 64 then ((widen n).toNat : Int)
      else ((widen n).toNat : Int) - (2 ^ 64 : Nat) :=
    BitVec.toInt_eq_toNat_cond _
  split at hword <;> omega

theorem inside_of_passed (hs : s.bytes.length < 2147483648)
    (h : ¬ (start < 0 ∨ start > length ∨ widen length > s.size - 1 ∨ widen (start + length) > s.size)) :
    Inside s start length := by
  simp only [not_or, Int32.lt_iff_toInt_lt, UInt64.lt_iff_toNat_lt, gt_iff_lt, toNat_size hs,
    Int.not_lt, Nat.not_lt] at h
  obtain ⟨hstart, hle, -, hend⟩ := h
  have hstart : 0 ≤ start.toInt := hstart
  have hlength : 0 ≤ length.toInt := by omega
  refine ⟨hstart, hlength, ?_⟩
  rcases toInt_add_cases hstart hlength with hsum | hneg
  · rw [toNat_widen (by omega), hsum] at hend
    omega
  · -- a sum that wrapped is refused by the last test
    have := lt_toNat_widen hneg
    omega

theorem toNat_widen_succ (hs : s.bytes.length < 2147483648)
    (h : ¬ (start < 0 ∨ start > length ∨ widen length > s.size - 1 ∨ widen (start + length) > s.size)) :
    (widen (length + 1)).toNat = length.toInt.toNat + 1 := by
  have hinside := inside_of_passed hs h
  obtain ⟨hstart, hlength, hle⟩ := hinside
  have hlt : length.toInt < 2147483647 := by
    have hpart : ¬ (s.bytes ≠ [] ∧ length.toInt = s.bytes.length) := fun hwhole =>
      h (.inr (.inr (.inl ((widen_gt_iff hs ⟨hstart, hlength, hle⟩).2 hwhole))))
    by_cases hnil : s.bytes = []
    · rw [hnil, List.length_nil] at hle
      omega
    · have : length.toInt ≠ s.bytes.length := fun heq => hpart ⟨hnil, heq⟩
      omega
  have hsum : (length + 1).toInt = length.toInt + 1 := by
    rw [Int32.toInt_add, Int.bmod_def]
    have hone : (1 : Int32).toInt = 1 := rfl
    omega
  rw [toNat_widen (by omega), hsum]
  omega

theorem copy_piece (hnull : ∀ x ∈ s.bytes, x ≠ 0) (h : Inside s start length) :
    Block.copy (s.bytes ++ [0]) start.toInt 0 (widen length).toNat
        (List.replicate (length.toInt.toNat + 1) none) =
      .ok ((s.piece start length).bytes.map some ++ [none]) := by
  obtain ⟨i, hi⟩ := Int.eq_ofNat_of_zero_le h.start_nonneg
  obtain ⟨n, hn⟩ := Int.eq_ofNat_of_zero_le h.length_nonneg
  have hle := h.le_size
  have hcopy := Block.copy_eq (i := i) (j := 0) (n := n) (b := List.replicate (n + 1) none) hnull
    (by omega) (by simp)
  rw [toNat_widen h.length_nonneg, piece, hi, hn, Int.toNat_natCast, Int.toNat_natCast]
  refine hcopy.trans ?_
  simp

/-- Cutting out a piece of a string aborts, or the piece lies inside the string, one byte more than
its length is asked for, and these cells hold the piece and a null behind it. It aborts where
`substring` has no piece to give or there is no memory, and it never leaves a block. -/
theorem cutOut_eq (hs : s.bytes.length < 2147483648) (hnull : ∀ x ∈ s.bytes, x ≠ 0)
    (room : UInt64 → Bool) (start length : Int32) :
    (s.substring start length = none ∧ s.cutOut room start length = .error .abort) ∨
      (Inside s start length ∧ s.substring start length = some (s.piece start length) ∧
        (widen (length + 1)).toNat = length.toInt + 1 ∧ (s.piece start length).bytes.length = length.toInt ∧
        s.cutOut room start length =
          if room (widen (length + 1)) then .ok (((s.piece start length).bytes ++ [0]).map some)
          else .error .abort) := by
  by_cases hrefused : start < 0 ∨ start > length ∨ widen length > s.size - 1 ∨ widen (start + length) > s.size
  · exact .inl ⟨if_pos hrefused, if_pos hrefused⟩
  · have hinside := inside_of_passed hs hrefused
    have hsize := toNat_widen_succ hs hrefused
    have hlength := hinside.length_nonneg
    have hpiece : (s.piece start length).bytes.length = length.toInt.toNat := by
      have := hinside.start_nonneg
      have := hinside.le_size
      rw [piece, List.length_take, List.length_drop]
      omega
    refine .inr ⟨hinside, if_neg hrefused, by omega, by omega, ?_⟩
    rw [cutOut, if_neg hrefused]
    dsimp only
    rw [hsize, copy_piece hnull hinside]
    have hlast : length.toInt.toNat < ((s.piece start length).bytes.map some ++ [none] : Block).length := by
      rw [List.length_append, List.length_map, hpiece]
      exact Nat.lt_succ_self _
    have hstore := Block.store_eq (x := 0) hlast
    rw [Int.toNat_of_nonneg hlength, ← hpiece] at hstore
    cases room (widen (length + 1)) with
    | false => rfl
    | true =>
      refine hstore.trans ?_
      simp

/-- Three of five bytes and the null behind them take four cells. -/
theorem cutOut_eq_middle :
    (∀ x ∈ ([72, 69, 76, 76, 79] : List UInt8), x ≠ 0) ∧
      cutOut ⟨[72, 69, 76, 76, 79]⟩ (fun _ => true) 1 3 = .ok [some 69, some 76, some 76, some 0] := by
  have hnull : ∀ x ∈ ([72, 69, 76, 76, 79] : List UInt8), x ≠ 0 := by simp
  refine ⟨hnull, ?_⟩
  rcases cutOut_eq (s := ⟨[72, 69, 76, 76, 79]⟩) (by decide) hnull (fun _ => true) 1 3 with h | h
  · exact absurd h.1 (by decide)
  · exact h.2.2.2.2

end CString

end Throbac
