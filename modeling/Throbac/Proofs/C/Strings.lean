import Throbac.CString

/-!
# The string functions

The bytes of a text in which every character is one byte are the characters, and joining joins them.
A piece that lies inside its string is asked for by its start and its length. It is given only if its
start is not behind its length and it is shorter than the string, or if the string is empty; what is
given is the piece that was asked for.
-/
namespace Throbac.CString

/-- The piece of the length from the start lies inside the string. -/
structure Inside (s : CString) (start length : Int32) : Prop where
  start_nonneg : 0 ≤ start.toInt
  length_nonneg : 0 ≤ length.toInt
  le_size : start.toInt + length.toInt ≤ s.bytes.length

instance (s : CString) (start length : Int32) : Decidable (Inside s start length) :=
  decidable_of_iff (0 ≤ start.toInt ∧ 0 ≤ length.toInt ∧ start.toInt + length.toInt ≤ s.bytes.length)
    ⟨fun h => ⟨h.1, h.2.1, h.2.2⟩, fun h => ⟨h.start_nonneg, h.length_nonneg, h.le_size⟩⟩

def piece (s : CString) (start length : Int32) : CString :=
  ⟨(s.bytes.drop start.toInt.toNat).take length.toInt.toNat⟩

variable {s : CString} {start length n : Int32}

theorem toNat_widen (h : 0 ≤ n.toInt) : (widen n).toNat = n.toInt.toNat := by
  have hwide : n.toInt64.toInt = n.toInt := n.toInt_toInt64
  have hnonneg : 0 ≤ n.toInt64 := by
    rw [Int64.le_iff_toInt_le, hwide]
    exact h
  rw [widen, Int64.toNat_toUInt64_of_le hnonneg, Int64.toNatClampNeg, hwide]

theorem toNat_size (h : s.bytes.length < 2147483648) : s.size.toNat = s.bytes.length := by
  rw [size, Nat.toUInt64_eq, UInt64.toNat_ofNat']
  exact Nat.mod_eq_of_lt (by omega)

theorem toNat_size_sub_one (h : s.bytes.length < 2147483648) :
    (s.size - 1).toNat = if s.bytes = [] then 18446744073709551615 else s.bytes.length - 1 := by
  split
  · next hnil =>
    obtain ⟨bytes⟩ := s
    cases hnil
    decide
  · next hne =>
    have hpos : 0 < s.bytes.length := List.length_pos_iff.2 hne
    have hone : (1 : UInt64) ≤ s.size := by
      rw [UInt64.le_iff_toNat_le, toNat_size h]
      exact hpos
    rw [UInt64.toNat_sub_of_le _ _ hone, toNat_size h]
    rfl

theorem widen_gt_iff (hs : s.bytes.length < 2147483648) (h : Inside s start length) :
    widen length > s.size - 1 ↔ s.bytes ≠ [] ∧ length.toInt = s.bytes.length := by
  obtain ⟨hstart, hlength, hle⟩ := h
  rw [gt_iff_lt, UInt64.lt_iff_toNat_lt, toNat_widen hlength, toNat_size_sub_one hs]
  split
  · next hnil =>
    have hbound := length.toInt_lt
    simp only [hnil, ne_eq, not_true_eq_false, false_and, iff_false]
    omega
  · next hne =>
    have hpos : 0 < s.bytes.length := List.length_pos_iff.2 hne
    simp only [ne_eq, hne, not_false_eq_true, true_and]
    omega

theorem not_widen_add_gt (hs : s.bytes.length < 2147483648) (h : Inside s start length) :
    ¬ widen (start + length) > s.size := by
  obtain ⟨hstart, hlength, hle⟩ := h
  have hsum : (start + length).toInt = start.toInt + length.toInt := by
    rw [Int32.toInt_add]
    exact Int.bmod_eq_of_le (by omega) (by omega)
  rw [gt_iff_lt, UInt64.lt_iff_toNat_lt, toNat_widen (by omega), toNat_size hs, hsum]
  omega

/-- Of the pieces that lie inside a string, exactly those are given whose start is not behind their
length and that are shorter than the string, and the empty piece of the empty string. For any other
piece the program aborts. -/
theorem substring_eq_of_inside (hs : s.bytes.length < 2147483648) (h : Inside s start length) :
    s.substring start length =
      if start.toInt ≤ length.toInt ∧ (length.toInt < s.bytes.length ∨ s.bytes = []) then
        some (s.piece start length)
      else none := by
  have hstart : ¬ start < 0 := by
    rw [Int32.lt_iff_toInt_lt]
    exact Int.not_lt.2 h.start_nonneg
  have hle : length.toInt ≤ s.bytes.length := by
    have := h.start_nonneg
    have := h.le_size
    omega
  unfold substring
  have hafter : start > length ↔ length.toInt < start.toInt := Int32.lt_iff_toInt_lt
  simp only [hstart, hafter, widen_gt_iff hs h, not_widen_add_gt hs h, false_or, or_false]
  by_cases hgiven : start.toInt ≤ length.toInt ∧ (length.toInt < s.bytes.length ∨ s.bytes = [])
  · rw [if_pos hgiven, if_neg]
    · rfl
    · rintro (hlt | ⟨hne, heq⟩)
      · omega
      · rcases hgiven.2 with hlt | hnil
        · omega
        · exact hne hnil
  · rw [if_neg hgiven, if_pos]
    rcases Int.lt_or_le length.toInt start.toInt with hlt | hge
    · exact .inl hlt
    · refine .inr ⟨fun hnil => hgiven ⟨hge, .inr hnil⟩, ?_⟩
      have hnot : ¬ length.toInt < s.bytes.length := fun hlt => hgiven ⟨hge, .inl hlt⟩
      omega

/-- Three of five bytes, from the second on. -/
theorem substring_eq_of_inside_middle :
    Inside ⟨[72, 69, 76, 76, 79]⟩ 1 3 ∧
      substring ⟨[72, 69, 76, 76, 79]⟩ 1 3 = some ⟨[69, 76, 76]⟩ := by
  have hinside : Inside ⟨[72, 69, 76, 76, 79]⟩ 1 3 := by decide
  refine ⟨hinside, ?_⟩
  rw [substring_eq_of_inside (by decide) hinside]
  decide

/-- The whole of a string and its last byte lie inside it and are refused. -/
theorem substring_refused :
    Inside ⟨[72, 69, 76, 76, 79]⟩ 0 5 ∧ substring ⟨[72, 69, 76, 76, 79]⟩ 0 5 = none ∧
      Inside ⟨[72, 69, 76, 76, 79]⟩ 4 1 ∧ substring ⟨[72, 69, 76, 76, 79]⟩ 4 1 = none := by
  decide

end Throbac.CString
