import Throbac.Text.Lines

/-!
# Splitting and joining

Pieces without the separator in them are read back from what they were joined to, and a text between
two marks is read back by stripping the marks.
-/
namespace Throbac.Text

variable {sep c : Char} {cs ds : List Char}

theorem split_of_not_mem (h : sep ∉ cs) : split sep cs = [cs] := by
  induction cs with
  | nil => rfl
  | cons c cs ih =>
    rw [List.mem_cons, not_or] at h
    rw [split, if_neg (Ne.symm h.1), ih h.2]

theorem split_append (h : sep ∉ cs) : split sep (cs ++ sep :: ds) = cs :: split sep ds := by
  induction cs with
  | nil => rw [List.nil_append, split, if_pos rfl]
  | cons c cs ih =>
    rw [List.mem_cons, not_or] at h
    rw [List.cons_append, split, if_neg (Ne.symm h.1), ih h.2]

theorem split_join {ps : List (List Char)} (hne : ps ≠ []) (h : ∀ p ∈ ps, sep ∉ p) :
    split sep (join [sep] ps) = ps := by
  induction ps with
  | nil => exact absurd rfl hne
  | cons p ps ih =>
    obtain ⟨hp, hps⟩ := List.forall_mem_cons.1 h
    cases ps with
    | nil => exact split_of_not_mem hp
    | cons q ps =>
      rw [join, List.append_assoc, List.singleton_append, split_append hp, ih (List.cons_ne_nil _ _) hps]
      exact List.cons_ne_nil _ _

theorem exists_split (sep : Char) (cs : List Char) : ∃ p ps, split sep cs = p :: ps := by
  cases cs with
  | nil => exact ⟨[], [], rfl⟩
  | cons c cs =>
    rw [split]
    split
    · exact ⟨_, _, rfl⟩
    · split <;> exact ⟨_, _, rfl⟩

theorem join_split (sep : Char) (cs : List Char) : join [sep] (split sep cs) = cs := by
  induction cs with
  | nil => rfl
  | cons c cs ih =>
    obtain ⟨p, ps, hsplit⟩ := exists_split sep cs
    rw [hsplit] at ih
    rw [split, hsplit]
    split
    · next hc =>
      rw [join, ih, hc]
      · rfl
      · exact List.cons_ne_nil _ _
    · rw [← ih]
      cases ps <;> rfl

theorem not_mem_of_mem_split {p : List Char} (h : p ∈ split sep cs) : sep ∉ p := by
  induction cs generalizing p with
  | nil => simp_all [split]
  | cons c cs ih =>
    obtain ⟨q, qs, hsplit⟩ := exists_split sep cs
    rw [split, hsplit] at h
    rw [hsplit] at ih
    split at h
    · rcases List.mem_cons.1 h with rfl | h
      · simp
      · exact ih h
    · next hc =>
      rcases List.mem_cons.1 h with rfl | h
      · simp [Ne.symm hc, ih List.mem_cons_self]
      · exact ih (List.mem_cons_of_mem _ h)

theorem head?_join (seps : List Char) {p : List Char} (ps : List (List Char)) (hp : p ≠ []) :
    (join seps (p :: ps)).head? = p.head? := by
  cases ps with
  | nil => rfl
  | cons q ps =>
    obtain ⟨c, p, rfl⟩ := List.exists_cons_of_ne_nil hp
    rw [join, List.append_assoc]
    · rfl
    · exact List.cons_ne_nil _ _

theorem getLast?_join (seps : List Char) {ps : List (List Char)} (hne : ps ≠ [])
    (h : ∀ p ∈ ps, p ≠ []) : ∃ p ∈ ps, (join seps ps).getLast? = p.getLast? := by
  induction ps with
  | nil => exact absurd rfl hne
  | cons p ps ih =>
    cases ps with
    | nil => exact ⟨p, List.mem_cons_self, rfl⟩
    | cons q ps =>
      obtain ⟨_, hq⟩ := List.forall_mem_cons.1 h
      obtain ⟨r, hr, hlast⟩ := ih (List.cons_ne_nil _ _) hq
      refine ⟨r, List.mem_cons_of_mem _ hr, ?_⟩
      rw [join, List.getLast?_append, hlast, List.getLast?_eq_some_getLast (hq r hr)]
      · rfl
      · exact List.cons_ne_nil _ _

theorem stripChar_enclosed (hhead : ∀ d ∈ cs.head?, d ≠ c) (hlast : ∀ d ∈ cs.getLast?, d ≠ c) :
    stripChar c (String.ofList (c :: (cs ++ [c]))) = String.ofList cs := by
  have hopen : (c :: (cs ++ [c])).dropWhile (· == c) = (cs ++ [c]).dropWhile (· == c) := by simp
  rw [stripChar, String.toList_ofList, hopen, dropEnd]
  refine congrArg String.ofList ?_
  rcases List.eq_nil_or_concat cs with rfl | ⟨front, last, rfl⟩
  · simp
  · have hl : last ≠ c := hlast last (by simp)
    have hkeep : (front.concat last ++ [c]).dropWhile (· == c) = front.concat last ++ [c] := by
      cases front with
      | nil => simp [hl]
      | cons d front =>
        have hd : d ≠ c := hhead d (by simp)
        simp [hd]
    rw [hkeep]
    simp [hl]

end Throbac.Text
