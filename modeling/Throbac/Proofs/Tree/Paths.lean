import Throbac.Tree.Path
import Mathlib.Data.List.Nodup
import Mathlib.Logic.Relation

/-!
# Where paths lead

A path denotes the nodes that its steps go to: a single slash to the parts of a node, a double slash
to what is properly below it, the first step from above the root. The search also goes from a node to
itself at a double slash, the node above the root included. So it finds what the path denotes in all
trees exactly if no such step keeps a phrase that the step before it keeps, or some step keeps
nothing. Token names are read by their position among all rules of the lexer, which is right for
numbers only.
-/
namespace Throbac

namespace Located

variable {l m k : Located} {t : ParseTree} {cs : List ParseTree} {p : List Nat} {i : Nat}

def Child (l m : Located) : Prop := m ∈ l.children

theorem child_iff : Child l m ↔ ∃ j c, l.tree.children[j]? = some c ∧ m = ⟨l.place ++ [j], c⟩ := by
  constructor
  · intro h
    obtain ⟨⟨c, j⟩, hc, rfl⟩ := List.mem_map.1 h
    exact ⟨j, c, List.mem_zipIdx_iff_getElem?.1 hc, rfl⟩
  · rintro ⟨j, c, hc, rfl⟩
    exact List.mem_map.2 ⟨(c, j), List.mem_zipIdx_iff_getElem?.2 hc, rfl⟩

theorem Child.length (h : Child l m) : m.place.length = l.place.length + 1 := by
  obtain ⟨j, c, -, rfl⟩ := child_iff.1 h
  simp

theorem place_extends (h : Relation.ReflTransGen Child l m) : l.place <+: m.place := by
  induction h with
  | refl => exact List.prefix_refl _
  | tail _ hc ih =>
    obtain ⟨j, c, -, rfl⟩ := child_iff.1 hc
    exact ih.trans (List.prefix_append _ _)

theorem length_lt (h : Relation.TransGen Child l m) : l.place.length < m.place.length := by
  obtain ⟨k, hlk, hkm⟩ := Relation.TransGen.head'_iff.1 h
  have := hlk.length
  have := (place_extends hkm).length_le
  omega

mutual

theorem mem_below (p : List Nat) (m : Located) :
    (t : ParseTree) → (m ∈ below p t ↔ Relation.ReflTransGen Child ⟨p, t⟩ m)
  | .leaf t e => by
    rw [below, List.mem_singleton, Relation.ReflTransGen.cases_head_iff]
    constructor
    · exact fun h => .inl h.symm
    · rintro (h | ⟨k, hk, -⟩)
      · exact h.symm
      · cases hk
  | .node i cs => by
    rw [below, List.mem_cons, mem_belowAll p 0 m cs, Relation.ReflTransGen.cases_head_iff]
    refine or_congr eq_comm ⟨?_, ?_⟩
    · rintro ⟨j, c, hc, hm⟩
      exact ⟨_, child_iff.2 ⟨j, c, hc, rfl⟩, by simpa using hm⟩
    · rintro ⟨k, hk, hm⟩
      obtain ⟨j, c, hc, rfl⟩ := child_iff.1 hk
      exact ⟨j, c, hc, by simpa using hm⟩

theorem mem_belowAll (p : List Nat) (i : Nat) (m : Located) :
    (cs : List ParseTree) → (m ∈ belowAll p i cs ↔
      ∃ j c, cs[j]? = some c ∧ Relation.ReflTransGen Child ⟨p ++ [i + j], c⟩ m)
  | [] => by simp [belowAll]
  | c :: cs => by
    rw [belowAll, List.mem_append, mem_below (p ++ [i]) m c, mem_belowAll p (i + 1) m cs]
    constructor
    · rintro (h | ⟨j, d, hd, h⟩)
      · exact ⟨0, c, rfl, h⟩
      · exact ⟨j + 1, d, hd, by rwa [Nat.add_right_comm] at h⟩
    · rintro ⟨j, d, hd, h⟩
      cases j with
      | zero =>
        cases hd
        exact .inl h
      | succ j => exact .inr ⟨j, d, hd, by rwa [Nat.add_right_comm]⟩

end

mutual

theorem nodup_below (p : List Nat) : (t : ParseTree) → ((below p t).map place).Nodup
  | .leaf t e => by simp [below]
  | .node i cs => by
    rw [below, List.map_cons, List.nodup_cons]
    refine ⟨fun h => ?_, nodup_belowAll p 0 cs⟩
    obtain ⟨m, hm, hp⟩ := List.mem_map.1 h
    obtain ⟨j, c, -, hm⟩ := (mem_belowAll p 0 m cs).1 hm
    have := (place_extends hm).length_le
    simp only [hp, List.length_append, List.length_singleton] at this
    omega

theorem nodup_belowAll (p : List Nat) (i : Nat) :
    (cs : List ParseTree) → ((belowAll p i cs).map place).Nodup
  | [] => by simp [belowAll]
  | c :: cs => by
    rw [belowAll, List.map_append, List.nodup_append]
    refine ⟨nodup_below _ c, nodup_belowAll p (i + 1) cs, ?_⟩
    rintro _ ha _ hb rfl
    obtain ⟨m, hm, rfl⟩ := List.mem_map.1 ha
    obtain ⟨n, hn, hp⟩ := List.mem_map.1 hb
    obtain ⟨j, d, -, hn⟩ := (mem_belowAll p (i + 1) n cs).1 hn
    -- One place lies behind the part `i`, the other behind a later part.
    have hi := List.prefix_iff_eq_take.1 (place_extends ((mem_below _ m c).1 hm))
    have hj := List.prefix_iff_eq_take.1 (place_extends hn)
    rw [hp] at hj
    simp only [List.length_append, List.length_singleton] at hi hj
    have := List.append_cancel_left (hi.trans hj.symm)
    simp only [List.cons.injEq, and_true] at this
    omega

end

mutual

theorem map_tree_below (p : List Nat) : (t : ParseTree) → (below p t).map tree = t.descendants
  | .leaf t e => rfl
  | .node i cs => by rw [below, List.map_cons, map_tree_belowAll p 0 cs, ParseTree.descendants]

theorem map_tree_belowAll (p : List Nat) (i : Nat) :
    (cs : List ParseTree) → (belowAll p i cs).map tree = ParseTree.descendantsAll cs
  | [] => rfl
  | c :: cs => by
    rw [belowAll, List.map_append, map_tree_below _ c, map_tree_belowAll p (i + 1) cs,
      ParseTree.descendantsAll]

end

theorem children_ne_nil (h : Child l m) : l.tree.children ≠ [] := by
  obtain ⟨j, c, hc, -⟩ := child_iff.1 h
  exact List.ne_nil_of_mem (List.mem_of_getElem? hc)

theorem eq_of_place {r : Located} (hl : Relation.ReflTransGen Child r l)
    (hm : Relation.ReflTransGen Child r m) (h : l.place = m.place) : l = m :=
  List.inj_on_of_nodup_map (nodup_below r.place r.tree) ((mem_below _ _ _).2 hl)
    ((mem_below _ _ _).2 hm) h

end Located

namespace PathStep

open Located

variable {s : PathStep} {l m r : Located}

theorem mem_next : m ∈ s.next l ↔ l.tree.children ≠ [] ∧
    (if s.anywhere then Relation.ReflTransGen Child l m else Child l m) ∧
      s.keeps m.tree = true := by
  unfold next
  by_cases h : l.tree.children = []
  · simp [h]
  · rw [if_neg (by simpa using h), List.mem_filter, and_iff_right h]
    refine and_congr_left fun _ => ?_
    split
    · exact mem_below l.place m l.tree
    · exact Iff.rfl

theorem reach_of_mem_next (h : m ∈ s.next l) : Relation.ReflTransGen Child l m := by
  obtain ⟨-, h, -⟩ := mem_next.1 h
  split at h
  · exact h
  · exact .single h

theorem nodup_next : ((s.next l).map place).Nodup := by
  unfold next
  split
  · simp
  · refine List.Nodup.sublist (List.filter_sublist.map _) ?_
    split
    · exact nodup_below _ _
    · have hplaces : l.children.map place =
          (l.tree.children.zipIdx.map Prod.snd).map fun j => l.place ++ [j] := by
        rw [Located.children, List.map_map, List.map_map]
        rfl
      rw [hplaces, List.zipIdx_map_snd]
      exact (List.nodup_range' 1).map fun i j h => by simpa using h

section Gathering

variable {ls ms found : List Located}

def gather (found ms : List Located) : List Located :=
  ms.foldl (fun found m => if found.any (·.place == m.place) then found else found ++ [m]) found

theorem nodup_gather (h : (found.map place).Nodup) : ((gather found ms).map place).Nodup := by
  induction ms generalizing found with
  | nil => exact h
  | cons m ms ih =>
    rw [gather, List.foldl_cons]
    apply ih
    split
    · exact h
    · rename_i hm
      rw [List.map_append, List.nodup_append]
      refine ⟨h, List.nodup_singleton _, ?_⟩
      rintro _ ha _ hb rfl
      simp only [List.map_cons, List.map_nil, List.mem_singleton] at hb
      obtain ⟨n, hn, he⟩ := List.mem_map.1 ha
      exact hm (List.any_eq_true.2 ⟨n, hn, by simp [he, hb]⟩)

theorem mem_gather (hf : ∀ m ∈ found, Relation.ReflTransGen Child r m)
    (hm : ∀ m ∈ ms, Relation.ReflTransGen Child r m) {n : Located} :
    n ∈ gather found ms ↔ n ∈ found ∨ n ∈ ms := by
  induction ms generalizing found with
  | nil => simp [gather]
  | cons m ms ih =>
    have hr := hm m List.mem_cons_self
    have hms := fun x hx => hm x (List.mem_cons_of_mem m hx)
    rw [gather, List.foldl_cons]
    split
    · rename_i h
      obtain ⟨x, hx, he⟩ := List.any_eq_true.1 h
      have hxm : x = m := eq_of_place (hf x hx) hr (by simpa using he)
      rw [← gather, ih hf hms, List.mem_cons]
      constructor
      · exact Or.imp_right .inr
      · rintro (h | rfl | h)
        · exact .inl h
        · exact .inl (hxm ▸ hx)
        · exact .inr h
    · rw [← gather, ih _ hms, List.mem_append, List.mem_singleton, List.mem_cons, or_assoc]
      intro x hx
      rcases List.mem_append.1 hx with hx | hx
      · exact hf x hx
      · exact List.mem_singleton.1 hx ▸ hr

theorem gather_eq_append (h : ((found ++ ms).map place).Nodup) : gather found ms = found ++ ms := by
  induction ms generalizing found with
  | nil => simp [gather]
  | cons m ms ih =>
    have hfresh : found.any (·.place == m.place) = false := by
      rw [List.any_eq_false]
      intro x hx he
      rw [List.map_append, List.nodup_append] at h
      exact h.2.2 x.place (List.mem_map_of_mem hx) m.place (by simp) (by simpa using he)
    rw [gather, List.foldl_cons, if_neg (by simp [hfresh]), ← gather, ih (by simpa using h),
      List.append_assoc, List.singleton_append]

theorem nextAll_eq : s.nextAll ls = ls.foldl (fun found l => gather found (s.next l)) [] := rfl

theorem nodup_nextAll : ((s.nextAll ls).map place).Nodup := by
  rw [nextAll_eq]
  refine List.foldlRecOn ls _ (motive := fun found : List Located => (found.map place).Nodup) List.nodup_nil ?_
  exact fun found h l _ => nodup_gather h

theorem mem_nextAll (h : ∀ l ∈ ls, Relation.ReflTransGen Child r l) :
    m ∈ s.nextAll ls ↔ ∃ l ∈ ls, m ∈ s.next l := by
  have hall : ∀ found, (∀ m ∈ found, Relation.ReflTransGen Child r m) →
      (m ∈ ls.foldl (fun found l => gather found (s.next l)) found ↔
        m ∈ found ∨ ∃ l ∈ ls, m ∈ s.next l) := by
    induction ls with
    | nil => simp
    | cons l ls ih =>
      intro found hf
      have hl : ∀ m ∈ s.next l, Relation.ReflTransGen Child r m := fun m hm =>
        (h l List.mem_cons_self).trans (reach_of_mem_next hm)
      have hinc : ∀ m ∈ gather found (s.next l), Relation.ReflTransGen Child r m := fun m hm =>
        ((mem_gather hf hl).1 hm).elim (hf m) (hl m)
      rw [List.foldl_cons, ih (fun x hx => h x (List.mem_cons_of_mem l hx)) _ hinc,
        mem_gather hf hl, or_assoc, List.exists_mem_cons_iff]
  simpa [nextAll_eq] using hall [] (by simp)

end Gathering

def keepsKind (s : PathStep) (k : NodeKind) : Bool := s.keeps (.node { kind := k } [])

theorem keeps_node {i : NodeInfo} {cs : List ParseTree} :
    s.keeps (.node i cs) = s.keepsKind i.kind := by
  unfold keepsKind keeps
  cases s.test <;> rfl

def IsPlain (s : PathStep) : Prop :=
  match s.test with
  | .rule n => 0 ≤ n ∧ n < Grammar.ruleNames.size
  | .token _ => False
  | .wildcard => True

def keepsNothing (s : PathStep) : Bool := s.test = .wildcard ∧ s.inverted

theorem keeps_of_keepsNothing (h : s.keepsNothing = true) (t : ParseTree) : s.keeps t = false := by
  simp only [keepsNothing, decide_eq_true_eq] at h
  simp [keeps, h.1, h.2]

theorem exists_keepsKind (hp : s.IsPlain) (hs : s.keepsNothing = false) :
    ∃ k, s.keepsKind k = true := by
  unfold IsPlain at hp
  simp only [keepsNothing, decide_eq_false_iff_not] at hs
  cases ht : s.test with
  | rule n =>
    rw [ht] at hp
    by_cases hi : s.inverted = true
    · refine ⟨.bare, ?_⟩
      have : (-1 : Int) ≠ n := by omega
      simp [keepsKind, keeps, ht, hi, NodeKind.rule, this]
    · have hn : n = 0 ∨ n = 1 ∨ n = 2 ∨ n = 3 ∨ n = 4 ∨ n = 5 ∨ n = 6 ∨ n = 7 ∨ n = 8 ∨ n = 9 ∨
          n = 10 := by
        have hsize : Grammar.ruleNames.size = 11 := rfl
        omega
      have hk : ∃ k : NodeKind, k.rule = n := by
        rcases hn with rfl | rfl | rfl | rfl | rfl | rfl | rfl | rfl | rfl | rfl | rfl
        exacts [⟨.script, rfl⟩, ⟨.funcDef, rfl⟩, ⟨.main, rfl⟩, ⟨.body, rfl⟩, ⟨.varDec, rfl⟩,
          ⟨.nameDef, rfl⟩, ⟨.varBlock, rfl⟩, ⟨.block, rfl⟩, ⟨.statement, rfl⟩, ⟨.expr, rfl⟩,
          ⟨.funcCall, rfl⟩]
      obtain ⟨k, hk⟩ := hk
      exact ⟨k, by simp [keepsKind, keeps, ht, hk, hi]⟩
  | token n =>
    rw [ht] at hp
    exact hp.elim
  | wildcard => exact ⟨.bare, by simpa [keepsKind, keeps, ht] using hs⟩

end PathStep

namespace TreePath

open Located

variable {path : TreePath} {l m : Located} {t : ParseTree}

/-- What a path denotes: each step goes to parts of a node, or after a double slash to what is
properly below it. -/
def Denotes : TreePath → Located → Located → Prop
  | [], l, m => m = l
  | s :: path, l, m => ∃ k, (if s.anywhere then Relation.TransGen Child l k else Child l k) ∧
      s.keeps k.tree = true ∧ Denotes path k m

/-- Where the search goes: after a double slash also to the node itself, if it has parts. -/
def Leads : TreePath → Located → Located → Prop
  | [], l, m => m = l
  | s :: path, l, m => ∃ k, l.tree.children ≠ [] ∧
      (if s.anywhere then Relation.ReflTransGen Child l k else Child l k) ∧
        s.keeps k.tree = true ∧ Leads path k m

/-- The search gives the nodes that the path denotes, each once, and nothing outside the tree. -/
structure Exact (path : TreePath) (t : ParseTree) : Prop where
  nodup : ((path.locate t).map place).Nodup
  mem_iff : ∀ m, m ∈ path.locate t ↔ path.Denotes (above t) m
  inside : ∀ m ∈ path.locate t, m ∈ below [0] t

/-- No step with a double slash keeps a phrase of a kind that could have been reached before it. -/
def ApartFrom (P : NodeKind → Prop) : TreePath → Prop
  | [] => True
  | s :: path => (s.anywhere = true → ∀ k, P k → s.keepsKind k = false) ∧
      ApartFrom (fun k => s.keepsKind k = true) path

/-- No step with a double slash keeps a phrase that the step before it keeps, nor the first one the
node above the root. -/
def Apart (path : TreePath) : Prop := path.ApartFrom (· = .bare)

theorem nodup_locate (path : TreePath) (t : ParseTree) : ((path.locate t).map place).Nodup := by
  unfold locate
  refine List.foldlRecOn path _ (motive := fun ls : List Located => (ls.map place).Nodup)
    (List.nodup_singleton _) ?_
  exact fun _ _ _ _ => PathStep.nodup_nextAll

theorem mem_locate : m ∈ path.locate t ↔ path.Leads (above t) m := by
  have hall : ∀ ls : List Located, (∀ l ∈ ls, Relation.ReflTransGen Child (above t) l) →
      (m ∈ path.foldl (fun ls s => s.nextAll ls) ls ↔ ∃ l ∈ ls, path.Leads l m) := by
    induction path with
    | nil => simp [Leads]
    | cons s path ih =>
      intro ls hls
      have hnext : ∀ k ∈ s.nextAll ls, Relation.ReflTransGen Child (above t) k := by
        intro k hk
        obtain ⟨l, hl, hk⟩ := (PathStep.mem_nextAll hls).1 hk
        exact (hls l hl).trans (PathStep.reach_of_mem_next hk)
      rw [List.foldl_cons, ih _ hnext]
      simp only [PathStep.mem_nextAll hls, PathStep.mem_next, Leads]
      grind
  simpa [locate] using hall [above t] (by simpa using .refl)

theorem Denotes.leads (h : path.Denotes l m) : path.Leads l m := by
  induction path generalizing l with
  | nil => exact h
  | cons s path ih =>
    obtain ⟨k, hk, hs, h⟩ := h
    by_cases ha : s.anywhere = true
    · rw [if_pos ha] at hk
      obtain ⟨n, hn, -⟩ := Relation.TransGen.head'_iff.1 hk
      exact ⟨k, children_ne_nil hn, by rw [if_pos ha]; exact hk.to_reflTransGen, hs, ih h⟩
    · rw [if_neg ha] at hk
      exact ⟨k, children_ne_nil hk, by rwa [if_neg ha], hs, ih h⟩

theorem Denotes.length_le (h : path.Denotes l m) :
    l.place.length + path.length ≤ m.place.length := by
  induction path generalizing l with
  | nil => exact h ▸ Nat.le_refl _
  | cons s path ih =>
    obtain ⟨k, hk, -, h⟩ := h
    have := ih h
    have hlt : l.place.length < k.place.length := by
      split at hk
      · exact length_lt hk
      · have := hk.length
        omega
    rw [List.length_cons]
    omega

theorem Denotes.inside (h : path.Denotes (above t) m) (hne : path ≠ []) : m ∈ below [0] t := by
  have hreach : ∀ (path : TreePath) (l : Located), path.Denotes l m →
      Relation.ReflTransGen Child l m := by
    intro path
    induction path with
    | nil => exact fun l h => h ▸ .refl
    | cons s path ih =>
      rintro l ⟨k, hk, -, h⟩
      split at hk
      · exact hk.to_reflTransGen.trans (ih k h)
      · exact .head hk (ih k h)
  have hlength := h.length_le
  have hpos := List.length_pos_iff.2 hne
  rcases Relation.ReflTransGen.cases_head (hreach path _ h) with he | ⟨k, hk, hm⟩
  · subst he
    omega
  · obtain ⟨j, c, hc, rfl⟩ := child_iff.1 hk
    cases j with
    | zero =>
      cases hc
      exact (mem_below _ _ _).2 hm
    | succ j => simp [above, ParseTree.children] at hc

theorem Leads.denotes {P : NodeKind → Prop} (h : path.Leads l m) (hp : path.ApartFrom P)
    (hl : ∀ i cs, l.tree = .node i cs → P i.kind) : path.Denotes l m := by
  induction path generalizing l P with
  | nil => exact h
  | cons s path ih =>
    obtain ⟨k, hne, hk, hs, h⟩ := h
    have hkind : ∀ i cs, k.tree = .node i cs → s.keepsKind i.kind = true := fun i cs he => by
      rwa [he, PathStep.keeps_node] at hs
    refine ⟨k, ?_, hs, ih h hp.2 hkind⟩
    by_cases ha : s.anywhere = true
    · rw [if_pos ha] at hk ⊢
      rcases Relation.reflTransGen_iff_eq_or_transGen.1 hk with rfl | hk
      · cases ht : k.tree with
        | leaf t e => simp [ht, ParseTree.children] at hne
        | node i cs => exact absurd (hkind i cs ht) (by simp [hp.1 ha _ (hl i cs ht)])
      · exact hk
    · rwa [if_neg ha] at hk ⊢

theorem not_leads_of_keepsNothing {s : PathStep} (hs : s ∈ path) (hn : s.keepsNothing = true) :
    ¬ path.Leads l m := by
  induction path generalizing l with
  | nil => cases hs
  | cons s' path ih =>
    rintro ⟨k, -, -, hk, h⟩
    rcases List.mem_cons.1 hs with rfl | hs
    · simp [PathStep.keeps_of_keepsNothing hn] at hk
    · exact ih hs h

theorem leads_below {s : PathStep} {k : NodeKind} {t : ParseTree} {i : NodeInfo} {p : List Nat} {m : Located}
    (hk : s.keepsKind k = true) (hm : path.Leads ⟨p ++ [0], .node { kind := k } [t]⟩ m) :
    Leads (s :: path) ⟨p, .node i [.node { kind := k } [t]]⟩ m := by
  have hchild : Child ⟨p, .node i [.node { kind := k } [t]]⟩ ⟨p ++ [0], .node { kind := k } [t]⟩ :=
    child_iff.2 ⟨0, _, rfl, rfl⟩
  refine ⟨_, children_ne_nil hchild, ?_, by rwa [PathStep.keeps_node], hm⟩
  split
  · exact .single hchild
  · exact hchild

theorem exists_chain (hplain : ∀ s ∈ path, s.IsPlain) (hs : ∀ s ∈ path, s.keepsNothing = false) :
    ∃ t, ∀ i p, ∃ m, path.Leads ⟨p, .node i [t]⟩ m ∧ m.place.length = p.length + path.length := by
  induction path with
  | nil => exact ⟨default, fun i p => ⟨_, rfl, rfl⟩⟩
  | cons s path ih =>
    obtain ⟨t, ht⟩ := ih (fun x hx => hplain x (List.mem_cons_of_mem s hx))
      fun x hx => hs x (List.mem_cons_of_mem s hx)
    obtain ⟨k, hk⟩ := PathStep.exists_keepsKind (hplain s List.mem_cons_self)
      (hs s List.mem_cons_self)
    refine ⟨.node { kind := k } [t], fun i p => ?_⟩
    obtain ⟨m, hm, hlen⟩ := ht { kind := k } (p ++ [0])
    refine ⟨m, leads_below hk hm, ?_⟩
    rw [hlen, List.length_append, List.length_singleton, List.length_cons]
    omega

theorem exists_shallow {P : NodeKind → Prop} (hP : ∃ k, P k) (hplain : ∀ s ∈ path, s.IsPlain)
    (hs : ∀ s ∈ path, s.keepsNothing = false) (h : ¬ path.ApartFrom P) :
    ∃ k t, P k ∧ ∀ i p, i.kind = k →
      ∃ m, path.Leads ⟨p, .node i [t]⟩ m ∧ m.place.length < p.length + path.length := by
  induction path generalizing P with
  | nil => exact absurd trivial h
  | cons s path ih =>
    have hplain' := fun x hx => hplain x (List.mem_cons_of_mem s hx)
    have hs' := fun x hx => hs x (List.mem_cons_of_mem s hx)
    rw [ApartFrom, not_and_or] at h
    rcases h with h | h
    · -- The step keeps the node it starts from, and the other steps go down from there.
      push Not at h
      obtain ⟨ha, k, hk, hkeep⟩ := h
      obtain ⟨t, ht⟩ := exists_chain hplain' hs'
      refine ⟨k, t, hk, fun i p hi => ?_⟩
      obtain ⟨m, hm, hlen⟩ := ht i p
      refine ⟨m, ⟨_, List.cons_ne_nil _ _, by rw [if_pos ha], ?_, hm⟩, ?_⟩
      · rw [PathStep.keeps_node, hi]
        simpa using hkeep
      · rw [hlen, List.length_cons]
        omega
    · obtain ⟨k', t, hk', ht⟩ := ih (PathStep.exists_keepsKind (hplain s List.mem_cons_self)
        (hs s List.mem_cons_self)) hplain' hs' h
      obtain ⟨k, hk⟩ := hP
      refine ⟨k, .node { kind := k' } [t], hk, fun i p _ => ?_⟩
      obtain ⟨m, hm, hlen⟩ := ht { kind := k' } (p ++ [0]) rfl
      refine ⟨m, leads_below hk' hm, ?_⟩
      rw [List.length_append, List.length_singleton] at hlen
      rw [List.length_cons]
      omega

/-- The search finds exactly the nodes that a path leads to, each once. It gives what the path denotes
in every tree exactly if the path is apart or has a step that keeps nothing. -/
theorem exact_iff (path : TreePath) (hne : path ≠ []) (hplain : ∀ s ∈ path, s.IsPlain) :
    (∀ t, ((path.locate t).map place).Nodup ∧
        ∀ m, m ∈ path.locate t ↔ path.Leads (above t) m) ∧
      ((∀ t, path.Exact t) ↔ path.Apart ∨ ∃ s ∈ path, s.keepsNothing = true) := by
  refine ⟨fun t => ⟨nodup_locate path t, fun m => mem_locate⟩, ?_, ?_⟩
  · intro hexact
    by_contra hnot
    obtain ⟨hapart, hs⟩ := not_or.1 hnot
    push Not at hs
    obtain ⟨k, t, rfl, ht⟩ := exists_shallow (P := (· = .bare)) ⟨.bare, rfl⟩ hplain
      (fun s h => by simpa using hs s h) hapart
    obtain ⟨m, hm, hlen⟩ := ht { kind := .bare, listed := true } [] rfl
    have := (((hexact t).mem_iff m).1 (mem_locate.2 hm)).length_le
    simp only [above, List.length_nil, Nat.zero_add] at hlen this
    omega
  · intro h t
    have hmem : ∀ m, m ∈ path.locate t ↔ path.Denotes (above t) m := by
      intro m
      rw [mem_locate]
      refine ⟨fun hm => ?_, Denotes.leads⟩
      rcases h with h | ⟨s, hs, hn⟩
      · refine hm.denotes h fun i cs he => ?_
        cases he
        rfl
      · exact absurd hm (not_leads_of_keepsNothing hs hn)
    exact ⟨nodup_locate path t, hmem, fun m hm => ((hmem m).1 hm).inside hne⟩

def nameTree : ParseTree := .node { kind := .name, listed := true } [.leaf { type := 37 } false]

def printTree : ParseTree :=
  .node { kind := .block, listed := true } [.node { kind := .printNumber, listed := true } [nameTree]]

/-- Expressions in statements of blocks are found as denoted. -/
theorem exact_iff_statements :
    Exact [⟨.rule 7, "block", true, false⟩, ⟨.rule 8, "statement", false, false⟩,
      ⟨.rule 9, "expr", true, false⟩] printTree ∧
    find [⟨.rule 7, "block", true, false⟩, ⟨.rule 8, "statement", false, false⟩,
      ⟨.rule 9, "expr", true, false⟩] printTree = [nameTree] := by
  refine ⟨(exact_iff _ (List.cons_ne_nil _ _) ?_).2.2 (.inl ?_) printTree, rfl⟩
  · simp [PathStep.IsPlain, Grammar.ruleNames]
  · refine ⟨fun _ k hk => hk ▸ rfl, fun h => absurd h (by decide), fun _ k hk => ?_, trivial⟩
    cases k <;> first | rfl | exact absurd hk (by decide)

/-- All nodes of a tree are asked for, and the node above its root is given as well. -/
theorem not_exact_wildcard :
    (ofString "//*").toOption = some [⟨.wildcard, "*", true, false⟩] ∧
      above nameTree ∈ locate [⟨.wildcard, "*", true, false⟩] nameTree ∧
      ¬ Exact [⟨.wildcard, "*", true, false⟩] nameTree := by
  have habove : above nameTree ∈ locate [⟨.wildcard, "*", true, false⟩] nameTree :=
    mem_locate.2 ⟨_, List.cons_ne_nil _ _, .refl, rfl, rfl⟩
  refine ⟨by decide +kernel, habove, fun h => ?_⟩
  have := place_extends ((mem_below _ _ _).1 (h.inside _ habove))
  simp [above] at this

/-- The leaves with a symbol, or with another one, in the order of the tree. -/
def leavesWith (x : Int) (inverted : Bool) (t : ParseTree) : List ParseTree :=
  t.descendants.filter fun c => c.token?.any fun k => inverted != (k.type == x)

theorem find_token (x : Int) (word : String) (inverted : Bool) (t : ParseTree) :
    find [⟨.token x, word, true, inverted⟩] t = leavesWith x inverted t := by
  have hlocate : locate [⟨.token x, word, true, inverted⟩] t =
      PathStep.next ⟨.token x, word, true, inverted⟩ (above t) := by
    change PathStep.gather [] _ = _
    rw [PathStep.gather_eq_append (by simpa using PathStep.nodup_next), List.nil_append]
  have hkeeps : ∀ c, PathStep.keeps ⟨.token x, word, true, inverted⟩ c =
      c.token?.any fun k => inverted != (k.type == x) := by
    intro c
    cases c <;> rfl
  rw [find, hlocate, PathStep.next, if_neg (by simp [above, ParseTree.children]), if_pos rfl,
    leavesWith, ← map_tree_below [0] t, List.filter_map]
  simp only [Located.descendants, above, below, belowAll, List.append_nil, hkeeps]
  rfl

theorem leavesWith_eq_iff {x y : Int} {inverted : Bool} {t : ParseTree} :
    leavesWith x inverted t = leavesWith y inverted t ↔
      x = y ∨ ∀ k ∈ t.leaves, k.type ≠ x ∧ k.type ≠ y := by
  constructor
  · intro h
    by_cases hxy : x = y
    · exact .inl hxy
    · refine .inr fun k hk => ?_
      obtain ⟨c, hc, hck⟩ := List.mem_filterMap.1 hk
      have hmem : c ∈ leavesWith x inverted t ↔ c ∈ leavesWith y inverted t := by rw [h]
      simp only [leavesWith, List.mem_filter, hc, true_and, hck, Option.any_some] at hmem
      grind
  · rintro (rfl | h)
    · rfl
    · refine List.filter_congr fun c hc => ?_
      cases hk : c.token? with
      | none => rfl
      | some k =>
        obtain ⟨hx, hy⟩ := h k (List.mem_filterMap.2 ⟨c, hc, hk⟩)
        simp [hx, hy]

def namedTokens : List (String × Nat) :=
  ["NUMBER", "STRING", "BOOL", "TYPE", "ID"].filterMap fun name =>
    (Grammar.symbolicNames.idxOf? name).map fun x => (name, x)

def readSymbol (name : String) (x : Nat) : Nat := if name = "NUMBER" then x else x + 1

theorem ofString_token : (namedTokens.all fun (name, x) => [false, true].all fun inverted =>
    decide ((ofString ((if inverted then "//!" else "//") ++ name)).toOption =
      some [⟨.token (readSymbol name x), name, true, inverted⟩])) = true := by
  decide +kernel

/-- A token name is taken for the symbol behind its own, unless it is that of numbers. So what is
found are the leaves with the symbol of the name, or inverted the others, exactly if the name is that
of numbers or the tree has no leaf with either symbol. -/
theorem findAll_token_iff (t : ParseTree) {name : String} {x : Nat} (h : (name, x) ∈ namedTokens)
    (inverted : Bool) :
    findAll t ((if inverted then "//!" else "//") ++ name) =
        .ok (leavesWith (readSymbol name x) inverted t) ∧
      (findAll t ((if inverted then "//!" else "//") ++ name) = .ok (leavesWith x inverted t) ↔
        name = "NUMBER" ∨ ∀ k ∈ t.leaves, k.type ≠ x ∧ k.type ≠ x + 1) := by
  have hread : findAll t ((if inverted then "//!" else "//") ++ name) =
      .ok (leavesWith (readSymbol name x) inverted t) := by
    have hall := List.all_eq_true.1 (List.all_eq_true.1 ofString_token _ h) inverted
      (by cases inverted <;> simp)
    have hof := of_decide_eq_true hall
    cases ho : ofString ((if inverted then "//!" else "//") ++ name) with
    | error e =>
      rw [ho] at hof
      cases hof
    | ok p =>
      rw [ho] at hof
      cases Option.some.inj hof
      rw [findAll, ho, ← find_token _ name]
      rfl
  refine ⟨hread, ?_⟩
  rw [hread, Except.ok.injEq, leavesWith_eq_iff]
  by_cases hn : name = "NUMBER"
  · simp [readSymbol, hn]
  · have hne : (x : Int) + 1 ≠ x := by omega
    simp [readSymbol, hn, hne, and_comm]

/-- A sum of a number and a name that is printed. -/
def sumTree : ParseTree :=
  .node { kind := .block, listed := true } [.node { kind := .printNumber, listed := true }
    [.node { kind := .addSub, listed := true }
      [.node { kind := .number, listed := true } [.leaf { type := 33 } false], .leaf { type := 23 } false, nameTree]]]

/-- In a sum the number is found under its token name, and the other leaves under its inverse. The name
is not found. -/
theorem findAll_token_iff_sum :
    ("NUMBER", 33) ∈ namedTokens ∧ findAll sumTree "//NUMBER" = .ok [.leaf { type := 33 } false] ∧
      findAll sumTree "//!NUMBER" = .ok [.leaf { type := 23 } false, .leaf { type := 37 } false] ∧
      ("ID", 37) ∈ namedTokens ∧ findAll sumTree "//ID" ≠ .ok (leavesWith 37 false sumTree) := by
  have hnumber : ("NUMBER", 33) ∈ namedTokens := by decide +kernel
  have hname : ("ID", 37) ∈ namedTokens := by decide +kernel
  refine ⟨hnumber, (findAll_token_iff sumTree hnumber false).1, (findAll_token_iff sumTree hnumber true).1, hname,
    fun h => ?_⟩
  rcases (findAll_token_iff sumTree hname false).2.1 h with h | h
  · exact absurd h (by decide)
  · exact (h { type := 37 } (List.mem_of_getElem? (i := 2) rfl)).1 rfl

/-- A name is not found under its token name, and it is among the tokens of other names. -/
theorem findAll_misses :
    (ofString "//ID").toOption = some [⟨.token 38, "ID", true, false⟩] ∧
      find [⟨.token 38, "ID", true, false⟩] nameTree = [] ∧
      find [⟨.token 38, "ID", true, true⟩] nameTree = [.leaf { type := 37 } false] ∧
      leavesWith 37 false nameTree = [.leaf { type := 37 } false] := by
  refine ⟨by decide +kernel, ?_, ?_, rfl⟩
  · rw [find_token]
    rfl
  · rw [find_token]
    rfl

end TreePath

end Throbac
