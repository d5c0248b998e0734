import Throbac.Proofs.Edits.Rendering
import Mathlib.Data.List.Forall2

/-!
# Insertions

Insertions at one place are joined while the program is reduced, and the earlier one is to leave a
gap. The position of the gap is counted without the gaps before it, so it is the right one only if
there are none. A program of insertions is therefore carried out exactly if its pairs of insertions at
one place lie inside each other; otherwise two edits are left at one place and the program is
refused.
-/
namespace Throbac

/-- A text to be inserted before or after a token. -/
inductive Insertion
  | before (index : Nat) (text : String)
  | after (index : Nat) (text : String)

namespace Insertion

/-- The token in front of which the text is to stand. -/
def place : Insertion → Nat
  | before i _ => i
  | after i _ => i + 1

def index : Insertion → Nat
  | before i _ => i
  | after i _ => i

def text : Insertion → String
  | before _ t => t
  | after _ t => t

def afterText? : Insertion → Option String
  | before .. => none
  | after _ t => some t

def beforeText? : Insertion → Option String
  | before _ t => some t
  | after .. => none

def perform : Insertion → EditM Unit
  | before i t => TokenEdits.insertBefore "default" i (some t)
  | after i t => TokenEdits.insertAfter "default" i (some t)

/-- The edit of an insertion, with the text that it has come to. -/
def edit (c : Insertion) (text : String) : Edit :=
  ⟨match c with | before .. => .before | after .. => .after, c.place, some text⟩

/-- What stands in front of a token: the texts put after the token before it in their order, then
those put before it, the latest first. -/
def inserted (calls : List Insertion) (i : Nat) : String :=
  String.join ((calls.filter (·.place == i)).filterMap afterText?) ++
    String.join ((calls.filter (·.place == i)).filterMap beforeText?).reverse

end Insertion

namespace TokenEdits

open Insertion

variable {T : Tape} {s : TokenEdits} {calls : List Insertion} {l : List (Option Edit)} {i : Nat}

/-- What the text of an insertion becomes when it meets an earlier one at its place. -/
def meet (text : String) (e : Edit) : String :=
  if e.kind = .before then text ++ e.text.getD "" else e.text.getD "" ++ text

/-- The joined text and the program after an insertion met the listed ones. -/
def joinAll (index : Int) (L : List (Edit × Nat)) (text : String) : String :=
  (L.filter (·.1.index == index)).foldl (fun t x => meet t x.1) text

theorem joinInserts_ok {L : List (Edit × Nat)} {e : Edit} {a : String} (he : e.text = some a)
    (hL : ∀ x ∈ L, x.1.text.isSome = true ∧ x.2 < i) (hi : s.listing[i]? = some (some e)) :
    ∃ s', joinInserts "default" i L e s = .ok { e with text := some (joinAll e.index L a) } s' ∧
      s'.stream = s.stream ∧ s'.listing.length = s.listing.length ∧
      s'.listing[i]? = some (some { e with text := some (joinAll e.index L a) }) ∧
      ∀ j ≠ i, s'.listing[j]? = if L.any fun x => x.1.index == e.index && x.2 == j
        then s.listing[j]?.map fun _ => none else s.listing[j]? := by
  induction L generalizing s e a with
  | nil =>
    have hself : { e with text := some (joinAll e.index [] a) } = e := by
      obtain ⟨k, x, t⟩ := e
      cases he
      rfl
    exact ⟨s, by rw [hself]; rfl, rfl, rfl, by rw [hself, hi], fun j _ => rfl⟩
  | cons x L ih =>
    have hL' := fun y hy => hL y (List.mem_cons_of_mem x hy)
    obtain ⟨p, k⟩ := x
    rw [joinInserts]
    by_cases hp : p.index = e.index
    · obtain ⟨hsome, hk⟩ := hL (p, k) List.mem_cons_self
      obtain ⟨b, hb⟩ : ∃ b, p.text = some b := Option.isSome_iff_exists.1 hsome
      have hall : joinAll e.index ((p, k) :: L) a = joinAll e.index L (meet a p) := by
        simp [joinAll, hp]
      have hmeet : (if p.kind = .before then a ++ b else b ++ a) = meet a p := by
        rw [meet, hb, Option.getD_some]
      let s₁ := (s.setProgram "default" ((s.program "default").setIfInBounds i
        (some { e with text := some (meet a p) })))
      let s₂ := s₁.setProgram "default" ((s₁.program "default").setIfInBounds k none)
      have hlisting : s₂.listing =
          (s.listing.set i (some { e with text := some (meet a p) })).set k none := by
        rw [listing_setProgram, Array.toList_setIfInBounds]
        congr 1
        exact (listing_setProgram _).trans Array.toList_setIfInBounds
      have hlt : i < s.listing.length := (List.getElem?_eq_some_iff.1 hi).1
      obtain ⟨s', hrun, hs', hlen, hself, hget⟩ := ih (s := s₂) (e := { e with text := some (meet a p) })
        rfl hL' (by rw [hlisting, List.getElem?_set_ne (by omega), List.getElem?_set_self hlt])
      refine ⟨s', ?_, hs', by simpa [hlisting] using hlen, by rw [hall]; exact hself,
        fun j hj => ?_⟩
      · rw [if_neg (by simpa using hp), hb, he, hall]
        simp only [hmeet]
        exact hrun
      · rw [hget j hj, hlisting, List.any_cons]
        by_cases hjk : k = j
        · subst hjk
          simp only [hp, beq_self_eq_true, Bool.and_self, Bool.true_or, if_true,
            List.getElem?_set_self', List.getElem?_set_ne (Ne.symm hj)]
          cases s.listing[k]? <;> simp
        · have hne : (k == j) = false := by simpa using hjk
          rw [List.getElem?_set_ne hjk, List.getElem?_set_ne (Ne.symm hj), hne, Bool.and_false,
            Bool.false_or]
    · have hne : (p.index == e.index) = false := by simpa using hp
      have hall : joinAll e.index ((p, k) :: L) a = joinAll e.index L a := by simp [joinAll, hp]
      obtain ⟨s', hrun, hs', hlen, hself, hget⟩ := ih he hL' hi
      rw [if_pos hp, hall]
      exact ⟨s', hrun, hs', hlen, hself, fun j hj => by rw [hget j hj, List.any_cons, hne]; rfl⟩

def standing (l : List (Option Edit)) (q : Nat) : List Edit := (l.take q).filterMap id

def rank (l : List (Option Edit)) (q : Nat) : Nat := (standing l q).length

theorem standing_live {q : Nat} {e : Edit} (h : l[q]? = some (some e)) :
    standing l (q + 1) = standing l q ++ [e] := by
  rw [standing, List.take_add_one, h]
  simp [standing]

theorem standing_gap {q : Nat} (h : ∀ e, l[q]? ≠ some (some e)) :
    standing l (q + 1) = standing l q := by
  rw [standing, List.take_add_one, List.filterMap_append]
  rcases ho : l[q]? with _ | _ | e
  · exact List.append_nil _
  · exact List.append_nil _
  · exact absurd ho (h e)

theorem rank_succ_le (l : List (Option Edit)) (q : Nat) : rank l (q + 1) ≤ rank l q + 1 := by
  by_cases h : ∃ e, l[q]? = some (some e)
  · obtain ⟨e, h⟩ := h
    rw [rank, standing_live h, List.length_append]
    exact Nat.le_refl _
  · rw [rank, standing_gap fun e he => h ⟨e, he⟩]
    exact Nat.le_succ _

theorem rank_le (l : List (Option Edit)) (q : Nat) : rank l q ≤ q := by
  induction q with
  | zero => exact Nat.le_refl 0
  | succ q ih => exact Nat.le_trans (rank_succ_le l q) (Nat.succ_le_succ ih)

theorem rank_mono {q r : Nat} (h : q ≤ r) : rank l q ≤ rank l r :=
  ((List.take_sublist_take_left h).filterMap id).length_le

theorem rank_lt {q g : Nat} (hg : g < q) (hl : l[g]? = some none) : rank l q < q := by
  induction q with
  | zero => omega
  | succ q ih =>
    rcases Nat.lt_succ_iff_lt_or_eq.1 hg with hg | rfl
    · exact Nat.lt_of_le_of_lt (rank_succ_le l q) (Nat.succ_lt_succ (ih hg))
    · rw [rank, standing_gap (by simp [hl])]
      exact Nat.lt_succ_of_le (rank_le l g)

theorem rank_eq {q : Nat} (hq : q ≤ l.length) (h : ∀ g < q, l[g]? ≠ some none) : rank l q = q := by
  induction q with
  | zero => rfl
  | succ q ih =>
    have hlive : ∃ e, l[q]? = some (some e) := by
      rw [List.getElem?_eq_getElem hq]
      have := h q (Nat.lt_succ_self q)
      rw [List.getElem?_eq_getElem hq] at this
      exact (Option.ne_none_iff_exists'.1 fun hn => this (congrArg some hn)).imp fun e => congrArg some
    obtain ⟨e, he⟩ := hlive
    have hrank : (standing l q).length = q := ih (by omega) fun g hg => h g (by omega)
    rw [rank, standing_live he, List.length_append, hrank]
    rfl

theorem mem_ranked {e : Edit} {k : Nat} : (e, k) ∈ (standing l i).zipIdx ↔
    ∃ q < i, l[q]? = some (some e) ∧ rank l q = k := by
  rw [List.mem_zipIdx_iff_getElem?]
  induction i with
  | zero => simp [standing]
  | succ i ih =>
    have hlast : (∃ q < i + 1, l[q]? = some (some e) ∧ rank l q = k) ↔
        (∃ q < i, l[q]? = some (some e) ∧ rank l q = k) ∨ l[i]? = some (some e) ∧ rank l i = k := by
      simp only [Nat.lt_succ_iff_lt_or_eq, or_and_right, exists_or, exists_eq_left]
    rw [hlast, ← ih]
    by_cases h : ∃ d, l[i]? = some (some d)
    · obtain ⟨d, h⟩ := h
      rw [standing_live h, h, List.getElem?_append, rank]
      split
      · rename_i hk
        simp [Nat.ne_of_gt hk]
      · rename_i hk
        rw [List.getElem?_eq_none (Nat.le_of_not_lt hk), List.getElem?_singleton]
        simp only [Option.some.injEq, reduceCtorEq, false_or]
        split
        · rename_i h0
          simp only [Option.some.injEq, show (standing l i).length = k by omega, and_true]
        · rename_i h0
          simp only [reduceCtorEq, show (standing l i).length ≠ k by omega, and_false]
    · rw [standing_gap fun d hd => h ⟨d, hd⟩]
      exact (or_iff_left fun hd => h ⟨e, hd.1⟩).symm

theorem exists_last {P : Nat → Prop} {n c : Nat} (hc : c < n) (h : P c) :
    ∃ q, c ≤ q ∧ q < n ∧ P q ∧ ∀ r, q < r → r < n → ¬ P r := by
  induction n with
  | zero => omega
  | succ n ih =>
    by_cases hn : P n
    · exact ⟨n, by omega, by omega, hn, fun r _ _ => by omega⟩
    · obtain ⟨q, hcq, hq, hP, hlast⟩ := ih (by
        rcases Nat.lt_succ_iff_lt_or_eq.1 hc with hc | rfl
        · exact hc
        · exact absurd h hn)
      refine ⟨q, hcq, by omega, hP, fun r hr hrn => ?_⟩
      rcases Nat.lt_succ_iff_lt_or_eq.1 hrn with hrn | rfl
      · exact hlast r hr hrn
      · exact hn

/-- The program while it is reduced: each edit keeps its kind and place and has some text, and those
from `i` on are as they were asked for. -/
structure Shaped (calls : List Insertion) (i : Nat) (l : List (Option Edit)) : Prop where
  length : l.length = calls.length
  entry : ∀ (j : Nat) (c : Insertion), calls[j]? = some c →
    l[j]? = some none ∧ j < i ∨ ∃ a, l[j]? = some (some (c.edit a)) ∧ (i ≤ j → a = c.text)

theorem Shaped.live (h : Shaped calls i l) {j : Nat} {e : Edit} (he : l[j]? = some (some e)) :
    ∃ c a, calls[j]? = some c ∧ e = c.edit a := by
  obtain ⟨hj, -⟩ := List.getElem?_eq_some_iff.1 he
  rw [h.length] at hj
  rcases h.entry j _ (List.getElem?_eq_getElem hj) with ⟨hn, -⟩ | ⟨a, ha, -⟩
  · rw [hn] at he
    cases he
  · rw [ha] at he
    cases he
    exact ⟨_, a, List.getElem?_eq_getElem hj, rfl⟩

/-- What the next step of the reduction does: the insertion takes up the texts of those at its place,
and at their ranks gaps appear. -/
structure Joined (l : List (Option Edit)) (i : Nat) (c : Insertion) (l' : List (Option Edit)) : Prop where
  self : l'[i]? = some (some (c.edit (joinAll c.place (standing l i).zipIdx c.text)))
  gap : ∀ (q : Nat) (e : Edit), q < i → l[q]? = some (some e) → e.index = c.place →
    l'[rank l q]? = some none
  other : ∀ j ≠ i, (∀ (q : Nat) (e : Edit), q < i → l[q]? = some (some e) → e.index = c.place →
    rank l q ≠ j) → l'[j]? = l[j]?
  length : l'.length = l.length

theorem mem_earlier {p : EditProgram} {k : Nat} {e : Edit} (h : (k, e) ∈ earlier p i) :
    p.toList[k]? = some (some e) := by
  obtain ⟨⟨o, k'⟩, ho, he⟩ := List.mem_filterMap.1 h
  obtain ⟨e', rfl, he⟩ := Option.map_eq_some_iff.1 he
  cases he
  have hget := List.mem_zipIdx_iff_getElem?.1 ho
  rw [List.getElem?_take] at hget
  split at hget
  · exact hget
  · cases hget

def Inserts (s : TokenEdits) : Prop :=
  ∀ (q : Nat) (e : Edit), s.listing[q]? = some (some e) → e.isInsert = true

theorem Inserts.earlier_eq (h : Inserts s) :
    (((earlier (s.program "default") i).filter (·.2.isInsert)).map (·.2)) = standing s.listing i ∧
      (earlier (s.program "default") i).filter (!·.2.isInsert) = [] := by
  constructor
  · rw [List.filter_eq_self.2 fun x hx => h x.1 x.2 (mem_earlier hx), earlier, List.map_filterMap,
      standing, ← List.zipIdx_map_fst 0 (s.listing.take i), List.filterMap_map]
    refine List.filterMap_congr fun x _ => ?_
    obtain ⟨o, k⟩ := x
    cases o <;> rfl
  · rw [List.filter_eq_nil_iff]
    intro x hx
    simp [h x.1 x.2 (mem_earlier hx)]

theorem isInsert_edit (c : Insertion) (a : String) : (c.edit a).isInsert = true := by
  cases c <;> rfl

theorem Shaped.inserts (h : Shaped calls i s.listing) : Inserts s := by
  intro q e he
  obtain ⟨c, a, -, rfl⟩ := h.live he
  exact isInsert_edit c a

theorem Inserts.reduceReplace_eq (h : Inserts s) : reduceReplace "default" i s = .ok ⟨⟩ s := by
  rw [reduceReplace, Run.get_bind, getElem?_program]
  rcases hl : s.listing[i]? with _ | _ | e
  · rfl
  · rfl
  · simp [h i e hl]

theorem Shaped.reduceInsert (h : Shaped calls i s.listing) {c : Insertion}
    (hc : calls[i]? = some c) :
    ∃ s', reduceInsert "default" i s = .ok ⟨⟩ s' ∧ s'.stream = s.stream ∧
      Joined s.listing i c s'.listing := by
  obtain ⟨a, hi, ha⟩ : ∃ a, s.listing[i]? = some (some (c.edit a)) ∧ (i ≤ i → a = c.text) := by
    rcases h.entry i c hc with ⟨-, hlt⟩ | hlive
    · omega
    · exact hlive
  obtain rfl := ha (Nat.le_refl i)
  obtain ⟨s', hrun, hs', hlen, hself, hget⟩ := joinInserts_ok (e := c.edit c.text) rfl
    (L := (standing s.listing i).zipIdx) (by
      intro x hx
      obtain ⟨q, hq, he, hr⟩ := mem_ranked.1 hx
      obtain ⟨c', a', -, hx'⟩ := h.live he
      have := rank_le s.listing q
      exact ⟨by rw [hx']; rfl, by omega⟩) hi
  have hany : ∀ j, ((standing s.listing i).zipIdx.any fun x =>
      x.1.index == (c.edit c.text).index && x.2 == j) = true ↔
      ∃ (q : Nat) (e : Edit), q < i ∧ s.listing[q]? = some (some e) ∧ e.index = c.place ∧
        rank s.listing q = j := by
    intro j
    simp only [List.any_eq_true, Bool.and_eq_true, beq_iff_eq, Prod.exists, mem_ranked]
    constructor
    · rintro ⟨e, k, ⟨q, hq, he, hr⟩, hp, rfl⟩
      exact ⟨q, e, hq, he, hp, hr⟩
    · rintro ⟨q, e, hq, he, hp, hr⟩
      exact ⟨e, j, ⟨q, hq, he, hr⟩, hp, rfl⟩
  have hinserts : Inserts s' := by
    intro q e he
    by_cases hq : q = i
    · subst hq
      rw [hself] at he
      cases he
      exact isInsert_edit c _
    · rw [hget q hq] at he
      split at he
      · cases hl : s.listing[q]? <;> simp [hl] at he
      · exact h.inserts q e he
  refine ⟨s', ?_, hs', hself, fun q e hq he hp => ?_, fun j hj hno => ?_, hlen⟩
  · rw [TokenEdits.reduceInsert, Run.get_bind, getElem?_program, hi]
    simp only [isInsert_edit, if_true]
    rw [Run.get_bind, h.inserts.earlier_eq.1, Run.bind_ok hrun, Run.get_bind,
      hinserts.earlier_eq.2]
    rfl
  · have hr := rank_le s.listing q
    obtain ⟨hlt, -⟩ := List.getElem?_eq_some_iff.1 hi
    rw [hget _ (by omega), if_pos ((hany _).2 ⟨q, e, hq, he, hp, rfl⟩),
      List.getElem?_eq_getElem (by omega)]
    rfl
  · rw [hget j hj, if_neg]
    rw [hany]
    rintro ⟨q, e, hq, he, hp, hr⟩
    exact hno q e hq he hp hr

/-- A later insertion before `i` is at the same place. -/
def Later (calls : List Insertion) (i j : Nat) (c : Insertion) : Prop :=
  ∃ (k : Nat) (d : Insertion), j < k ∧ k < i ∧ calls[k]? = some d ∧ d.place = c.place

/-- The program when all gaps so far are where they should be: the last insertion at each place has
taken up the texts of the others. -/
structure Good (calls : List Insertion) (i : Nat) (l : List (Option Edit)) : Prop
    extends Shaped calls i l where
  joined : ∀ (j : Nat) (c : Insertion), j < i → calls[j]? = some c → Later calls i j c →
    l[j]? = some none
  last : ∀ (j : Nat) (c : Insertion), j < i → calls[j]? = some c → ¬ Later calls i j c →
    l[j]? = some (some (c.edit (inserted (calls.take (j + 1)) c.place)))

/-- An earlier edit at the place of the next insertion has a gap before it. -/
def Clash (l : List (Option Edit)) (i : Nat) (c : Insertion) : Prop :=
  ∃ (q g : Nat) (e : Edit), g < q ∧ q < i ∧ l[g]? = some none ∧ l[q]? = some (some e) ∧
    e.index = c.place

def Bad (i : Nat) (l : List (Option Edit)) : Prop :=
  ∃ (g q r : Nat) (e e' : Edit), g < q ∧ q < r ∧ r < i ∧ l[g]? = some none ∧
    l[q]? = some (some e) ∧ l[r]? = some (some e') ∧ e.index = e'.index

section Step

variable {l' : List (Option Edit)} {c : Insertion}

theorem Joined.gap_stays (h : Joined l i c l') {g : Nat} (hi : g < i) (hg : l[g]? = some none) :
    l'[g]? = some none := by
  by_cases hr : ∃ (q : Nat) (e : Edit), q < i ∧ l[q]? = some (some e) ∧ e.index = c.place ∧
      rank l q = g
  · obtain ⟨q, e, hq, he, hp, rfl⟩ := hr
    exact h.gap q e hq he hp
  · rw [h.other g (by omega) fun q e hq he hp hr' => hr ⟨q, e, hq, he, hp, hr'⟩, hg]

theorem Shaped.step (h : Shaped calls i l) (hc : calls[i]? = some c) (hj : Joined l i c l') :
    Shaped calls (i + 1) l' := by
  refine ⟨hj.length.trans h.length, fun j d hd => ?_⟩
  by_cases hi : j = i
  · subst hi
    rw [hc] at hd
    cases hd
    exact .inr ⟨_, hj.self, fun h => by omega⟩
  · by_cases hr : ∃ (q : Nat) (e : Edit), q < i ∧ l[q]? = some (some e) ∧ e.index = c.place ∧
        rank l q = j
    · obtain ⟨q, e, hq, he, hp, rfl⟩ := hr
      have := rank_le l q
      exact .inl ⟨hj.gap q e hq he hp, by omega⟩
    · rw [hj.other j hi fun q e hq he hp hr' => hr ⟨q, e, hq, he, hp, hr'⟩]
      rcases h.entry j d hd with ⟨hn, hlt⟩ | ⟨a, ha, hle⟩
      · exact .inl ⟨hn, by omega⟩
      · exact .inr ⟨a, ha, fun h => hle (by omega)⟩

theorem Clash.bad (h : Clash l i c) (hj : Joined l i c l') : Bad (i + 1) l' := by
  obtain ⟨q, g, e, hgq, hq, hg, he, hp⟩ := h
  obtain ⟨r, hqr, hr, ⟨d, hd, hdp⟩, hlast⟩ := exists_last
    (P := fun r => ∃ d, l[r]? = some (some d) ∧ d.index = c.place) hq ⟨e, he, hp⟩
  have hkeep : l'[r]? = some (some d) := by
    rw [hj.other r (by omega), hd]
    intro k d' hk hd' hp' hrank
    have hkr : k ≤ r := Nat.le_of_not_lt fun hlt => hlast k hlt hk ⟨d', hd', hp'⟩
    have := rank_mono (l := l) hkr
    have := rank_lt (l := l) (q := r) (g := g) (by omega) hg
    omega
  exact ⟨g, r, i, d, _, by omega, hr, by omega, hj.gap_stays (by omega) hg, hkeep, hj.self, hdp⟩

theorem Bad.step (h : Bad i l) (hj : Joined l i c l') : Bad (i + 1) l' := by
  by_cases hclash : Clash l i c
  · exact hclash.bad hj
  · obtain ⟨g, q, r, e, e', hgq, hqr, hr, hg, he, he', hp⟩ := h
    -- Whatever is dropped lies before the gap.
    have hkeep : ∀ k, g < k → k < i → l'[k]? = l[k]? := by
      intro k hgk hk
      refine hj.other k (by omega) fun m d hm hd hdp hrank => ?_
      have hle : m ≤ g := Nat.le_of_not_lt fun hlt => hclash ⟨m, g, d, hlt, hm, hg, hd, hdp⟩
      have := rank_le l m
      omega
    exact ⟨g, q, r, e, e', hgq, hqr, by omega, hj.gap_stays (by omega) hg,
      (hkeep q hgq (by omega)).trans he, (hkeep r (by omega) hr).trans he', hp⟩

end Step

theorem filter_eq_singleton {α : Type} {p : α → Bool} {xs : List α} {j : Nat} {x : α}
    (hj : xs[j]? = some x) (hx : p x = true)
    (h : ∀ (k : Nat) (y : α), xs[k]? = some y → p y = true → k = j) : xs.filter p = [x] := by
  induction xs generalizing j with
  | nil => simp at hj
  | cons y xs ih =>
    cases j with
    | zero =>
      cases hj
      rw [List.filter_cons_of_pos hx, List.filter_eq_nil_iff.2]
      intro z hz hpz
      obtain ⟨k, hk⟩ := List.mem_iff_getElem?.1 hz
      exact absurd (h (k + 1) z hk hpz) (Nat.succ_ne_zero k)
    | succ j =>
      rw [List.filter_cons_of_neg fun hy => absurd (h 0 y rfl hy) (Nat.succ_ne_zero j).symm]
      exact ih hj fun k z hk hz => Nat.succ.inj (h (k + 1) z hk hz)

theorem joinAll_standing (n : Int) (a : String) : joinAll n (standing l i).zipIdx a =
    ((standing l i).filter (·.index == n)).foldl meet a := by
  conv_rhs => rw [← List.zipIdx_map_fst 0 (standing l i), List.filter_map, List.foldl_map]
  rfl

section Good

variable {l' : List (Option Edit)} {c : Insertion}

theorem Good.later_of_gap (h : Good calls i l) {g : Nat} (hi : g < i) (hg : l[g]? = some none) :
    ∃ d, calls[g]? = some d ∧ Later calls i g d := by
  obtain ⟨hlt, -⟩ := List.getElem?_eq_some_iff.1 hg
  have hd := List.getElem?_eq_getElem (h.length ▸ hlt : g < calls.length)
  refine ⟨_, hd, ?_⟩
  by_contra hlast
  rw [h.last g _ hi hd hlast] at hg
  cases hg

theorem Good.exists_standing (h : Good calls i l) {j : Nat} {d : Insertion} (hj : j < i)
    (hd : calls[j]? = some d) : ∃ (q : Nat) (e : Edit), j ≤ q ∧ q < i ∧ l[q]? = some (some e) ∧
      e.index = d.place := by
  obtain ⟨q, hjq, hq, ⟨d', hd', hp⟩, hlast⟩ := exists_last
    (P := fun q => ∃ d', calls[q]? = some d' ∧ d'.place = d.place) hj ⟨d, hd, rfl⟩
  refine ⟨q, _, hjq, hq, h.last q d' hq hd' ?_, congrArg Nat.cast hp⟩
  rintro ⟨k, d'', hqk, hk, hd'', hp'⟩
  exact hlast k hqk hk ⟨d'', hd'', hp'.trans hp⟩

theorem Good.alone (h : Good calls i l) (hclash : ¬ Clash l i c) {j : Nat} {d : Insertion} (hj : j < i)
    (hd : calls[j]? = some d) (hp : d.place = c.place) :
    l[j]? = some (some (d.edit d.text)) ∧
      ∀ (k : Nat) (d' : Insertion), k < i → calls[k]? = some d' → d'.place = c.place → k = j := by
  -- An earlier one of two at the place would leave a gap before the one that stands.
  have hno : ∀ (j : Nat) (d : Insertion), j < i → calls[j]? = some d → d.place = c.place →
      ¬ Later calls i j d := by
    rintro j d hj hd hp hlater
    obtain ⟨k, d', hjk, hk, hd', hp'⟩ := hlater
    obtain ⟨q, e, hkq, hq, he, hep⟩ := h.exists_standing hk hd'
    exact hclash ⟨q, j, e, by omega, hq, h.joined j d hj hd ⟨k, d', hjk, hk, hd', hp'⟩, he,
      by rw [hep, hp', hp]⟩
  have honly : ∀ (k : Nat) (d' : Insertion), k < i → calls[k]? = some d' → d'.place = c.place →
      k = j := by
    intro k d' hk hd' hp'
    rcases Nat.lt_trichotomy k j with hkj | hkj | hkj
    · exact absurd ⟨j, d, hkj, hj, hd, hp.trans hp'.symm⟩ (hno k d' hk hd' hp')
    · exact hkj
    · exact absurd ⟨k, d', hkj, hk, hd', hp'.trans hp.symm⟩ (hno j d hj hd hp)
  have htext : inserted (calls.take (j + 1)) d.place = d.text := by
    have hfilter : (calls.take (j + 1)).filter (·.place == d.place) = [d] := by
      refine filter_eq_singleton (j := j) (by rw [List.getElem?_take_of_lt (by omega), hd])
        (by simp) fun k y hk hy => ?_
      rw [List.getElem?_take] at hk
      split at hk
      · exact honly k y (by omega) hk ((beq_iff_eq.1 hy).trans hp)
      · cases hk
    rw [inserted, hfilter]
    cases d <;> simp [List.filterMap_cons, afterText?, beforeText?, Insertion.text]
  exact ⟨by rw [h.last j d hj hd (hno j d hj hd hp), htext], honly⟩

theorem filter_standing {n : Nat} {os : List (Option Edit)} {ds : List Insertion}
    (h : List.Forall₂ (fun o (d : Insertion) => if d.place = n then o = some (d.edit d.text)
      else ∀ e, o = some e → e.index ≠ (n : Int)) os ds) :
    (os.filterMap id).filter (·.index == (n : Int)) =
      (ds.filter (·.place == n)).map fun d => d.edit d.text := by
  induction h with
  | nil => rfl
  | @cons o d os ds hod _ ih =>
    split at hod
    · rename_i hp
      subst hod
      rw [List.filterMap_cons_some (f := id) (b := d.edit d.text) rfl,
        List.filter_cons_of_pos (by simp [Insertion.edit, hp]), List.filter_cons_of_pos (by simp [hp]),
        List.map_cons, ih]
    · rename_i hp
      rw [List.filter_cons_of_neg (by simpa using hp), ← ih]
      cases o with
      | none => rw [List.filterMap_cons_none rfl]
      | some e =>
        rw [List.filterMap_cons_some (f := id) (b := e) rfl,
          List.filter_cons_of_neg (by simpa using hod e rfl)]

theorem Good.joinAll_eq (h : Good calls i l) (hc : calls[i]? = some c) (hclash : ¬ Clash l i c) :
    joinAll c.place (standing l i).zipIdx c.text = inserted (calls.take (i + 1)) c.place := by
  have hstanding : (standing l i).filter (·.index == (c.place : Int)) =
      ((calls.take i).filter (·.place == c.place)).map fun d => d.edit d.text := by
    refine filter_standing (List.forall₂_iff_get.2 ⟨by simp [h.length], fun j hj hj' => ?_⟩)
    simp only [List.length_take, Nat.lt_min] at hj hj'
    have hl := List.getElem?_eq_getElem hj.2
    have hd := List.getElem?_eq_getElem hj'.2
    simp only [List.get_eq_getElem, List.getElem_take]
    split
    · rename_i hp
      exact Option.some.inj (hl.symm.trans (h.alone hclash hj.1 hd hp).1)
    · rename_i hp
      intro e he
      rw [he] at hl
      obtain ⟨d, a, hd', rfl⟩ := h.live hl
      rw [hd] at hd'
      cases hd'
      exact fun hcast => hp (Int.ofNat.inj hcast)
  have htake : (calls.take (i + 1)).filter (·.place == c.place) =
      (calls.take i).filter (·.place == c.place) ++ [c] := by
    rw [List.take_add_one, hc]
    simp
  rw [joinAll_standing, hstanding, inserted, htake]
  by_cases hex : ∃ (j : Nat) (d : Insertion), j < i ∧ calls[j]? = some d ∧ d.place = c.place
  · obtain ⟨j, d, hj, hd, hp⟩ := hex
    have hone : (calls.take i).filter (·.place == c.place) = [d] := by
      refine filter_eq_singleton (j := j) (by rw [List.getElem?_take_of_lt hj, hd]) (by simp [hp])
        fun k y hk hy => ?_
      rw [List.getElem?_take] at hk
      split at hk
      · exact (h.alone hclash hj hd hp).2 k y ‹_› hk (beq_iff_eq.1 hy)
      · cases hk
    rw [hone]
    cases d <;> cases c <;>
      simp [meet, List.filterMap_cons, Insertion.edit, Insertion.text, afterText?, beforeText?]
  · have hnone : (calls.take i).filter (·.place == c.place) = [] := by
      rw [List.filter_eq_nil_iff]
      intro d hd hp
      obtain ⟨j, hj⟩ := List.mem_iff_getElem?.1 hd
      rw [List.getElem?_take] at hj
      split at hj
      · exact hex ⟨j, d, ‹_›, hj, beq_iff_eq.1 hp⟩
      · cases hj
    rw [hnone]
    cases c <;> simp [List.filterMap_cons, Insertion.text, afterText?, beforeText?]

theorem Good.step (h : Good calls i l) (hc : calls[i]? = some c) (hclash : ¬ Clash l i c)
    (hj : Joined l i c l') : Good calls (i + 1) l' := by
  have hi : i < calls.length := (List.getElem?_eq_some_iff.1 hc).1
  -- No gap stands before an edit at the place, so its rank is its position.
  have hrank : ∀ (q : Nat) (e : Edit), q < i → l[q]? = some (some e) → e.index = c.place →
      rank l q = q := fun q e hq he hp =>
    rank_eq (by rw [h.length]; omega) fun g hg hgap => hclash ⟨q, g, e, hg, hq, hgap, he, hp⟩
  refine ⟨h.toShaped.step hc hj, fun j d hlt hd hlater => ?_, fun j d hlt hd hlast => ?_⟩
  · obtain ⟨k, d', hjk, hk, hd', hp⟩ := hlater
    by_cases hbefore : Later calls i j d
    · exact hj.gap_stays (by omega) (h.joined j d (by omega) hd hbefore)
    · obtain rfl : k = i := by
        by_contra hne
        exact hbefore ⟨k, d', hjk, by omega, hd', hp⟩
      rw [hc] at hd'
      cases hd'
      have hl := h.last j d hjk hd hbefore
      have hindex : (d.edit (inserted (calls.take (j + 1)) d.place)).index = c.place :=
        congrArg Nat.cast hp.symm
      simpa [hrank j _ hjk hl hindex] using hj.gap j _ hjk hl hindex
  · rcases Nat.lt_succ_iff_lt_or_eq.1 hlt with hlt | rfl
    · have hl := h.last j d hlt hd (by
        rintro ⟨k, d', hjk, hk, hd', hp⟩
        exact hlast ⟨k, d', hjk, by omega, hd', hp⟩)
      rw [hj.other j (by omega), hl]
      intro q e hq he hp hr
      rw [hrank q e hq he hp] at hr
      subst hr
      rw [hl] at he
      cases he
      exact hlast ⟨i, c, hq, Nat.lt_succ_self i, hc, Int.ofNat.inj hp.symm⟩
    · rw [hc] at hd
      cases hd
      rw [hj.self, h.joinAll_eq hc hclash]

/-- Of two pairs of insertions at one place each, the one that ends first lies inside the other. -/
def NestedTo (calls : List Insertion) (n : Nat) : Prop :=
  ∀ (a b a' b' : Nat) (w x y z : Insertion), a < b → b < b' → a' < b' → b' < n →
    calls[a]? = some w → calls[b]? = some x → calls[a']? = some y → calls[b']? = some z →
    w.place = x.place → y.place = z.place → a' < a

theorem Good.clash_iff (h : Good calls i l) (hc : calls[i]? = some c) (hn : NestedTo calls i) :
    Clash l i c ↔ ¬ NestedTo calls (i + 1) := by
  constructor
  · rintro ⟨q, g, e, hgq, hq, hg, he, hp⟩ hnested
    obtain ⟨w, hw, k, x, hgk, hk, hx, hwx⟩ := h.later_of_gap (by omega) hg
    obtain ⟨y, a, hy, rfl⟩ := h.live he
    have := hnested g k q i w x y c hgk hk hq (Nat.lt_succ_self i) hw hx hy hc hwx.symm
      (Int.ofNat.inj hp)
    omega
  · intro hnot
    by_contra hclash
    refine hnot fun a b a' b' w x y z hab hbb haa hb hw hx hy hz hwx hyz => ?_
    rcases Nat.lt_succ_iff_lt_or_eq.1 hb with hb | rfl
    · exact hn a b a' b' w x y z hab hbb haa hb hw hx hy hz hwx hyz
    · rw [hc] at hz
      cases hz
      by_contra hle
      obtain ⟨q, e, haq, hq, he, hep⟩ := h.exists_standing haa hy
      have hgap := h.joined a w (by omega) hw ⟨b, x, hab, hbb, hx, hwx.symm⟩
      have hne : a ≠ q := by
        rintro rfl
        rw [hgap] at he
        cases he
      exact hclash ⟨q, a, e, by omega, hq, hgap, he, by rw [hep, hyz]⟩

end Good

theorem Good.zero : Good calls 0 (calls.map fun c => some (c.edit c.text)) where
  length := by simp
  entry := fun j c hc => .inr ⟨c.text, by simp [hc], fun _ => rfl⟩
  joined := fun _ _ h => absurd h (Nat.not_lt_zero _)
  last := fun _ _ h => absurd h (Nat.not_lt_zero _)

theorem reduceInserts (hs : Good calls 0 s.listing) {n : Nat} (hn : n ≤ calls.length) :
    ∃ s', (List.range n).forM (reduceInsert "default") s = .ok ⟨⟩ s' ∧ s'.stream = s.stream ∧
      Shaped calls n s'.listing ∧ (NestedTo calls n → Good calls n s'.listing) ∧
      (¬ NestedTo calls n → Bad n s'.listing) := by
  induction n with
  | zero =>
    refine ⟨s, rfl, rfl, hs.toShaped, fun _ => hs, fun hnot => absurd ?_ hnot⟩
    exact fun _ _ _ _ _ _ _ _ _ _ _ h => absurd h (Nat.not_lt_zero _)
  | succ n ih =>
    obtain ⟨s₁, hrun, hs₁, hshaped, hgood, hbad⟩ := ih (by omega)
    have hc := List.getElem?_eq_getElem (show n < calls.length from hn)
    obtain ⟨s', hstep, hs', hjoined⟩ := hshaped.reduceInsert hc
    refine ⟨s', ?_, hs'.trans hs₁, hshaped.step hc hjoined, fun hnested => ?_, fun hnot => ?_⟩
    · rw [forM_range_succ, Run.bind_ok hrun, hstep]
    · have hn' : NestedTo calls n := fun a b a' b' w x y z hab hbb haa hb =>
        hnested a b a' b' w x y z hab hbb haa (by omega)
      have hg := hgood hn'
      exact hg.step hc (fun hclash => (hg.clash_iff hc hn').1 hclash hnested) hjoined
    · by_cases hn' : NestedTo calls n
      · exact (((hgood hn').clash_iff hc hn').2 hnot).bad hjoined
      · exact (hbad hn').step hjoined

/-- The pairs of insertions at one place lie inside each other. -/
def Nested (calls : List Insertion) : Prop := NestedTo calls calls.length

/-- A text with insertions: in front of each token, and behind the last, what is inserted there. -/
def woven (T : Tape) (calls : List Insertion) : String :=
  String.join ((List.range (T.last + 2)).map fun i => inserted calls i ++ T.word i)

theorem inserted_eq_empty {k : Nat} (h : ∀ c ∈ calls, c.place ≠ k) : inserted calls k = "" := by
  have hnone : calls.filter (·.place == k) = [] := by
    rw [List.filter_eq_nil_iff]
    exact fun c hc hp => h c hc (beq_iff_eq.1 hp)
  rw [inserted, hnone]
  rfl

theorem Good.exists_edit (h : Good calls calls.length l) {c : Insertion} (hc : c ∈ calls) :
    ∃ (j : Nat) (e : Edit), l[j]? = some (some e) ∧ e.isInsert = true ∧ e.index = c.place ∧
      e.text = some (inserted calls c.place) := by
  obtain ⟨j, hj⟩ := List.mem_iff_getElem?.1 hc
  obtain ⟨hlt, -⟩ := List.getElem?_eq_some_iff.1 hj
  obtain ⟨q, -, hq, ⟨d, hd, hp⟩, hlast⟩ := exists_last
    (P := fun q => ∃ d, calls[q]? = some d ∧ d.place = c.place) hlt ⟨c, hj, rfl⟩
  have hl := h.last q d hq hd (by
    rintro ⟨k, d', hqk, hk, hd', hp'⟩
    exact hlast k hqk hk ⟨d', hd', hp'.trans hp⟩)
  refine ⟨q, _, hl, isInsert_edit d _, congrArg Nat.cast hp, ?_⟩
  -- Behind the last insertion at the place there is none.
  have hrest : (calls.drop (q + 1)).filter (·.place == c.place) = [] := by
    rw [List.filter_eq_nil_iff]
    intro x hx hxp
    obtain ⟨k, hk⟩ := List.mem_iff_getElem?.1 hx
    rw [List.getElem?_drop] at hk
    exact hlast (q + 1 + k) (by omega) (List.getElem?_eq_some_iff.1 hk).1 ⟨x, hk, beq_iff_eq.1 hxp⟩
  have hfilter : calls.filter (·.place == c.place) =
      (calls.take (q + 1)).filter (·.place == c.place) := by
    conv_lhs => rw [← List.take_append_drop (q + 1) calls, List.filter_append, hrest, List.append_nil]
  change some (inserted (calls.take (q + 1)) d.place) = _
  rw [hp, inserted, inserted, hfilter]

theorem Good.nodup (h : Good calls calls.length l) :
    ((l.filterMap id).map Edit.index).Nodup := by
  rw [nodup_index_iff]
  intro q r e e' hqr he he' hp
  obtain ⟨c, a, hc, rfl⟩ := h.live he
  obtain ⟨d, b, hd, rfl⟩ := h.live he'
  obtain ⟨hr, -⟩ := List.getElem?_eq_some_iff.1 hd
  rw [h.joined q c (by omega) hc ⟨r, d, hqr, hr, hd, Int.ofNat.inj hp.symm⟩] at he
  cases he

theorem mem_standing {e : Edit} : e ∈ l.filterMap id ↔ ∃ j : Nat, l[j]? = some (some e) := by
  rw [List.mem_filterMap]
  simp only [id_eq, exists_eq_right, List.mem_iff_getElem?]

theorem Good.lays (h : Good calls calls.length l) :
    Lays T (tabled (l.filterMap id)) (fun i => inserted calls i ++ T.word i) fun _ => True := by
  refine ⟨trivial, fun i _ _ => ?_⟩
  by_cases hex : ∃ c ∈ calls, c.place = i
  · obtain ⟨c, hc, rfl⟩ := hex
    obtain ⟨j, e, he, hins, hindex, htext⟩ := h.exists_edit hc
    exact .inr (.inl ⟨e, _, (editAt_tabled h.nodup).2 ⟨mem_standing.2 ⟨j, he⟩, hindex⟩, hins, hindex,
      htext, rfl, trivial⟩)
  · refine .inl ⟨editAt_tabled_eq_none.2 fun e he hi => ?_, ?_, trivial⟩
    · obtain ⟨j, he⟩ := mem_standing.1 he
      obtain ⟨c, a, hc, rfl⟩ := h.live he
      exact hex ⟨c, List.mem_of_getElem? hc, Int.ofNat.inj hi⟩
    · dsimp only
      rw [inserted_eq_empty fun c hc hp => hex ⟨c, hc, hp⟩, String.empty_append]

theorem Good.join_onwards (h : Good calls calls.length l) {n : Nat} (hn : ∀ c ∈ calls, c.place ≤ n) :
    String.join ((onwards (tabled (l.filterMap id)) n).map (·.2.text.getD "")) = inserted calls n := by
  have hle : ∀ e ∈ l.filterMap id, ∃ c ∈ calls, e.index = c.place := by
    intro e he
    obtain ⟨j, he⟩ := mem_standing.1 he
    obtain ⟨c, a, hc, rfl⟩ := h.live he
    exact ⟨c, List.mem_of_getElem? hc, rfl⟩
  by_cases hex : ∃ c ∈ calls, c.place = n
  · obtain ⟨c, hc, rfl⟩ := hex
    obtain ⟨j, e, he, -, hindex, htext⟩ := h.exists_edit hc
    obtain ⟨k, hk⟩ := List.mem_iff_getElem?.1 (mem_standing.2 ⟨j, he⟩)
    have hone : onwards (tabled (l.filterMap id)) c.place = [(e.index, e)] := by
      refine filter_eq_singleton (j := k) (by rw [tabled, List.getElem?_map, hk]; rfl)
        (by simp [hindex]) fun m y hm hy => ?_
      obtain ⟨d, hd, rfl⟩ := Option.map_eq_some_iff.1 ((List.getElem?_map ..).symm.trans hm)
      obtain ⟨c', hc', hp⟩ := hle d (List.mem_of_getElem? hd)
      have := hn c' hc'
      have hsame : d.index = e.index := by
        simp only [decide_eq_true_eq] at hy
        omega
      have hlt : m < ((l.filterMap id).map Edit.index).length := by
        rw [List.length_map]
        exact (List.getElem?_eq_some_iff.1 hd).1
      refine (List.getElem?_inj hlt h.nodup).1 ?_
      rw [List.getElem?_map, List.getElem?_map, hd, hk, Option.map_some, Option.map_some, hsame]
    rw [hone]
    simp [htext]
  · have hnone : onwards (tabled (l.filterMap id)) n = [] := by
      rw [onwards, List.filter_eq_nil_iff]
      intro x hx hle'
      obtain ⟨e, he, rfl⟩ := List.mem_map.1 hx
      obtain ⟨c, hc, hp⟩ := hle e he
      have := hn c hc
      exact hex ⟨c, hc, by simp only [decide_eq_true_eq] at hle'; omega⟩
    rw [hnone, inserted_eq_empty fun c hc hp => hex ⟨c, hc, hp⟩]
    rfl

theorem perform_insertions (calls : List Insertion) (s : TokenEdits) :
    ∃ s', calls.forM Insertion.perform s = .ok ⟨⟩ s' ∧ s'.stream = s.stream ∧
      s'.listing = s.listing ++ calls.map fun c => some (c.edit c.text) := by
  induction calls generalizing s with
  | nil => exact ⟨s, rfl, rfl, by simp⟩
  | cons c calls ih =>
    have hperform : c.perform s = .ok ⟨⟩ (s.setProgram "default"
        ((s.program "default").push (some (c.edit c.text)))) := by
      cases c <;> rfl
    obtain ⟨s', hrun, hs', hl⟩ := ih (s.setProgram "default"
      ((s.program "default").push (some (c.edit c.text))))
    refine ⟨s', ?_, hs', ?_⟩
    · rw [List.forM, Run.bind_ok hperform, hrun]
    · rw [hl, listing_setProgram, Array.toList_push, List.map_cons, List.append_assoc]
      rfl

theorem place_le {c : Insertion} {n : Nat} (h : c.index ≤ n) : c.place ≤ n + 1 := by
  cases c <;> simp only [Insertion.index, Insertion.place] at h ⊢ <;> omega

theorem woven_eq (T : Tape) (calls : List Insertion) :
    woven T calls = joined (fun i => inserted calls i ++ T.word i) 0 (T.last + 1) ++
      inserted calls (T.last + 1) := by
  have hword : T.word (T.last + 1) = "" := if_neg (by omega)
  rw [woven, List.range_succ, List.map_append, String.join_append, joined, List.range_eq_range']
  simp [hword]

theorem reduce_insertions {s' : TokenEdits} (hzero : Good calls 0 s.listing)
    (hrun : (List.range calls.length).forM (reduceInsert "default") s = .ok ⟨⟩ s') :
    reduce "default" s = (MonadExcept.ofExcept (onePerIndex (s'.listing.filterMap id)) : EditM _) s' := by
  have hsize : (s.program "default").size = calls.length := by
    rw [← Array.length_toList]
    exact hzero.length
  have hreplaces : ∀ n, (List.range n).forM (reduceReplace "default") s = .ok ⟨⟩ s := by
    intro n
    induction n with
    | zero => rfl
    | succ n ih => rw [forM_range_succ, Run.bind_ok ih, hzero.inserts.reduceReplace_eq]
  rw [reduce, Run.get_bind, hsize, Run.bind_ok (hreplaces _), Run.bind_ok hrun, Run.get_bind]
  rfl

theorem defaultText_of_nested (h : s.stream.Full T) (hT : T.Spelled) (hzero : Good calls 0 s.listing)
    (hplace : ∀ c ∈ calls, c.place ≤ T.last + 1) (hnested : Nested calls) :
    ∃ s', defaultText s = .ok (woven T calls) s' := by
  obtain ⟨s', hrun, hs', -, hgood, -⟩ := reduceInserts hzero (Nat.le_refl _)
  have hg := hgood hnested
  by_cases hnil : s.listing = []
  · refine ⟨s, ?_⟩
    obtain rfl : calls = [] := List.eq_nil_of_length_eq_zero (by rw [← hzero.length, hnil, List.length_nil])
    rw [defaultText_nil h hT hnil, woven_eq]
    simp [inserted_eq_empty]
  · refine ⟨s', ?_⟩
    have hreduce := reduce_insertions hzero hrun
    rw [onePerIndex_eq, if_pos hg.nodup, Run.ofExcept_ok] at hreduce
    have hmem : ∀ p ∈ tabled (s'.listing.filterMap id), 0 ≤ p.1 ∧ p.1 = p.2.index ∧
        p.2.text.isSome = true := by
      intro p hp
      obtain ⟨e, he, rfl⟩ := List.mem_map.1 hp
      obtain ⟨j, he⟩ := mem_standing.1 he
      obtain ⟨c, a, -, rfl⟩ := hg.live he
      exact ⟨Int.natCast_nonneg _, rfl, rfl⟩
    rw [defaultText_eq h hT hnil hreduce hs' hg.lays (fun p hp => (hmem p hp).1) fun p hp => ?_,
      hg.join_onwards hplace, woven_eq]
    obtain ⟨hp, hle⟩ := List.mem_filter.1 hp
    obtain ⟨-, hindex, htext⟩ := hmem p hp
    rw [decide_eq_true_eq] at hle
    exact ⟨by omega, htext⟩

theorem defaultText_of_not_nested (hzero : Good calls 0 s.listing) (hnot : ¬ Nested calls) :
    ∃ s', defaultText s = .error .twoEditsAtOneIndex s' := by
  obtain ⟨s', hrun, -, hshaped, -, hbad⟩ := reduceInserts hzero (Nat.le_refl _)
  obtain ⟨g, q, r, e, e', -, hqr, -, hg, he, he', hp⟩ := hbad hnot
  have hdup : ¬ ((s'.listing.filterMap id).map Edit.index).Nodup := fun hnd =>
    nodup_index_iff.1 hnd q r e e' hqr he he' hp
  have hreduce := reduce_insertions hzero hrun
  rw [onePerIndex_eq, if_neg hdup, Run.ofExcept_error] at hreduce
  have hempty : (s.program "default").isEmpty = false := by
    rw [Array.isEmpty_eq_false_iff]
    intro hnil
    obtain ⟨hlt, -⟩ := List.getElem?_eq_some_iff.1 hg
    have hlen := hzero.length
    rw [hshaped.length, ← hlen, listing, hnil] at hlt
    exact absurd hlt (Nat.not_lt_zero g)
  refine ⟨s', ?_⟩
  rw [defaultText, Run.get_bind, TokenEdits.text, Run.get_bind, Run.get_bind, hempty]
  exact Run.bind_error hreduce

def insertThenText (calls : List Insertion) : EditM String := do
  calls.forM Insertion.perform
  defaultText

/-- Insertions all appear in the text, in the right order, exactly if the pairs of insertions at one
place lie inside each other. Otherwise the program is refused. -/
theorem insertThenText_iff (T : Tape) (hT : T.Spelled) {stream : TokenStream} (hs : stream.Full T)
    {calls : List Insertion} (hc : ∀ c ∈ calls, c.index ≤ T.last) :
    ((∃ s', insertThenText calls { stream } = .ok (woven T calls) s') ↔ Nested calls) ∧
      (¬ Nested calls →
        ∃ s', insertThenText calls { stream } = .error .twoEditsAtOneIndex s') := by
  obtain ⟨s₁, hrun, hs₁, hl⟩ := perform_insertions calls { stream }
  have hl₁ : s₁.listing = calls.map fun c => some (c.edit c.text) := hl
  have hfull : s₁.stream.Full T := hs₁ ▸ hs
  have hzero : Good calls 0 s₁.listing := hl₁ ▸ .zero
  have htext : insertThenText calls { stream } = defaultText s₁ := Run.bind_ok hrun
  rw [htext]
  refine ⟨⟨fun h => ?_, defaultText_of_nested hfull hT hzero fun c hmem => place_le (hc c hmem)⟩,
    defaultText_of_not_nested hzero⟩
  by_contra hnot
  obtain ⟨s', h⟩ := h
  obtain ⟨s'', h'⟩ := defaultText_of_not_nested hzero hnot
  rw [h] at h'
  cases h'

/-- Two insertions at each of two places, one pair inside the other. -/
theorem insertThenText_iff_inside :
    ∃ s', insertThenText [.before 2 "x", .after 0 "y", .before 1 "z", .before 2 "w"]
      { stream := lettersStream } = .ok "ayzbwxc" s' := by
  have hwoven : woven lettersTape [.before 2 "x", .after 0 "y", .before 1 "z", .before 2 "w"] =
      "ayzbwxc" := by decide +kernel
  have hnested : Nested [.before 2 "x", .after 0 "y", .before 1 "z", .before 2 "w"] := by
    intro a b a' b' w x y z hab hbb haa hb hw hx hy hz hwx hyz
    simp only [List.length_cons, List.length_nil] at hb
    obtain rfl | ⟨rfl, rfl⟩ : a = 0 ∨ a = 1 ∧ b = 2 := by omega
    · obtain rfl | rfl : b = 1 ∨ b = 2 := by omega
      all_goals
        cases hw
        cases hx
        cases hwx
    · obtain rfl : b' = 3 := by omega
      obtain rfl | rfl | rfl : a' = 0 ∨ a' = 1 ∨ a' = 2 := by omega
      · decide
      all_goals
        cases hy
        cases hz
        cases hyz
  have h := (insertThenText_iff lettersTape lettersTape_spelled lettersStream_full (by
    simp [Insertion.index, lettersTape, Tape.last])).1.2 hnested
  rwa [hwoven] at h

/-- Three insertions at one place are refused. -/
theorem insertThenText_thrice :
    woven lettersTape [.before 0 "x", .before 0 "y", .before 0 "z"] = "zyxabc" ∧
      ∃ s', insertThenText [.before 0 "x", .before 0 "y", .before 0 "z"]
        { stream := lettersStream } = .error .twoEditsAtOneIndex s' :=
  ⟨by decide +kernel, _, rfl⟩

end TokenEdits

end Throbac
