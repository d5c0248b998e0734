import Mathlib.Data.List.Basic
import Throbac.Proofs.Lexing.Lexicon
import Throbac.Proofs.Lexing.Paths

/-!
# Networks that spell patterns

A pattern is laid over a network from a place on: characters along edges that read them, choices and
loops at states that branch. `walk` does so and gives the place where the pattern ends. Where it
succeeds, the completed paths from the first place are exactly the words of the pattern followed by
the completed paths from the last. Everything is a computation on the states of the network, so that
a given network can be checked against a given pattern.
-/
namespace Throbac

namespace CharClass

def intervals (k : CharClass) : List Interval := k.ranges.map fun r => ⟨r.1.toNat, r.2.toNat + 1⟩

/-- A character to try, one of the class if it has any of the usual ones. -/
def sample (k : CharClass) : Char :=
  match k.negated, k.ranges with
  | false, r :: _ => r.1
  | _, _ => ' '

def spells (k : CharClass) : Label → Bool
  | .atom n => !k.negated && k.intervals == [⟨n, n + 1⟩]
  | .set s => !k.negated && s.intervals == some k.intervals
  | .notSet s => k.negated && s.intervals == some k.intervals
  | _ => false

theorem any_intervals (k : CharClass) (c : Char) :
    (k.ranges.any fun r => r.1.toNat ≤ c.toNat && c.toNat ≤ r.2.toNat) =
      decide (∃ i ∈ k.intervals, i.Contains (c.toNat : Int)) := by
  rw [Bool.eq_iff_iff]
  simp only [intervals, List.any_eq_true, decide_eq_true_eq, List.mem_map, Interval.Contains,
    Bool.and_eq_true, exists_exists_and_eq_and]
  constructor
  all_goals
    rintro ⟨r, hr, h⟩
    exact ⟨r, hr, by omega⟩

theorem reads_of_spells {k : CharClass} {l : Label} (h : k.spells l = true) (c : Char) :
    l.reads c.toNat 0 Symbol.maxChar = k.has c := by
  have hmax : c.toNat < 0x110000 := by
    have := c.valid
    simp only [UInt32.isValidChar, Nat.isValidChar] at this
    simp only [Char.toNat]
    omega
  cases l with
  | atom n =>
    obtain ⟨hn, hi⟩ : k.negated = false ∧ k.intervals = [⟨n, n + 1⟩] := by simpa [spells] using h
    rw [has, any_intervals, hi, hn, Bool.eq_iff_iff]
    simp [Label.reads, Interval.Contains]
    omega
  | set s =>
    obtain ⟨hn, hi⟩ : k.negated = false ∧ s.intervals = some k.intervals := by
      simpa [spells] using h
    simp [has, any_intervals, hn, Label.reads, SymbolSet.contains, SymbolSet.Contains,
      SymbolSet.parts, hi]
  | notSet s =>
    obtain ⟨hn, hi⟩ : k.negated = true ∧ s.intervals = some k.intervals := by
      simpa [spells] using h
    have hc : (c.toNat : Int) ≤ Symbol.maxChar := by
      simp only [Symbol.maxChar]
      omega
    simp [has, any_intervals, hn, Label.reads, SymbolSet.contains, SymbolSet.Contains,
      SymbolSet.parts, hi, hc]
  | _ => simp [spells] at h

end CharClass

namespace Lexing

/-- A state with the return states of the calls that led to it, the innermost first. -/
abbrev Place := Nat × List Nat

namespace Place

/-- The configuration moved to a place, whose calls go on top of its own. -/
def put (c : LexConfig) (p : Place) : LexConfig :=
  { c with state := p.1, context := p.2.foldr (fun (ret : Nat) s => s.push ret) c.context }

end Place

/-- Follows single edges that read nothing, and returns, as long as there is no choice. -/
def glide (look : Nat → NetState) : Nat → Place → Place
  | 0, p => p
  | fuel + 1, (n, rets) =>
    if (look n).isRuleStop then
      match rets with
      | ret :: rets => glide look fuel (ret, rets)
      | [] => (n, [])
    else
      match (look n).edges.toList with
      | [⟨t, .epsilon _⟩] => glide look fuel (t, rets)
      | [⟨t, .call _ _ ret⟩] => glide look fuel (t, ret :: rets)
      | _ => (n, rets)

def glideBound : Nat := 16

def settle (look : Nat → NetState) (p : Place) : Place := glide look glideBound p

/-- The places a choice leads to, none if there is no choice. -/
def branches (look : Nat → NetState) (p : Place) : List Place :=
  if (look p.1).isRuleStop then []
  else if (look p.1).edges.toList.all fun e => e.label matches .epsilon _ then
    (look p.1).edges.toList.map fun e => (e.target, p.2)
  else []

/-- The places several patterns may start from: those given, or the branches of the only one. -/
def fan (look : Nat → NetState) : List Place → List Place
  | [p] => branches look (settle look p)
  | ps => ps

/-- Lays a pattern over the network from the given places on. Gives the place where it ends. -/
def walk (look : Nat → NetState) : Pattern → List Place → Option Place
  | .empty, [p] => some p
  | .one k, [p] =>
    let q := settle look p
    if (look q.1).isRuleStop then none
    else match (look q.1).edges.toList with
      | [e] => if k.spells e.label && k.has k.sample then some (e.target, q.2) else none
      | _ => none
  | .seq p q, ps => (walk look p ps).bind fun x => walk look q [x]
  | .alt p q, ps =>
    match fan look ps with
    | x :: y :: zs =>
      match walk look p [x], walk look q (y :: zs) with
      | some a, some b => if settle look a = settle look b then some (settle look a) else none
      | _, _ => none
    | _ => none
  | .star p, [x] =>
    let entry := settle look x
    match branches look entry with
    | [body, exit] =>
      if !p.nullable && (walk look p [body]).map (settle look) = some entry then some exit else none
    | _ => none
  | .plus p, [x] =>
    match walk look p [x] with
    | some t =>
      match branches look (settle look t) with
      | [body, exit] => if !p.nullable && settle look body = settle look x then some exit else none
      | _ => none
    | none => none
  | _, _ => none

variable {net : Network} {rank : Nat → Nat} {c : LexConfig}

namespace Place

theorem context_put_ne_null (hc : c.context ≠ .null) (p : Place) : (put c p).context ≠ .null := by
  obtain ⟨n, rets⟩ := p
  induction rets with
  | nil => exact hc
  | cons ret rets ih =>
    simp only [put, List.foldr_cons] at ih ⊢
    unfold StackContext.push
    split
    · contradiction
    · simp

theorem put_cons (hc : c.context ≠ .null) (n ret : Nat) (rets : List Nat) :
    put c (n, ret :: rets) = { put c (n, rets) with context := .single (put c (n, rets)).context ret } := by
  have h := context_put_ne_null hc (n, rets)
  simp only [put, List.foldr_cons] at h ⊢
  unfold StackContext.push
  split
  · contradiction
  · rfl

end Place

open Place (put put_cons)

/-- A configuration whose only way on is a slip. -/
structure Slides (net : Network) (c d : LexConfig) : Prop where
  slips : slips net c = [d]
  reads : ∀ t, reads net t c = []

theorem Slides.path {d : LexConfig} (h : Slides net c d) : Path net c [] d :=
  .slip (h.slips ▸ List.mem_singleton_self d) (.refl d)

theorem Slides.of_path {d x : LexConfig} {u : List Char} (h : Slides net c d)
    (hx : Path net c u x) : (u = [] ∧ x = c) ∨ Path net d u x := by
  rcases Path.unfold_iff.1 hx with ⟨rfl, rfl⟩ | ⟨e, he, hx⟩ | ⟨a, v, _, e, he, _⟩
  · exact .inl ⟨rfl, rfl⟩
  · rw [h.slips] at he
    exact .inr (List.mem_singleton.1 he ▸ hx)
  · simp [h.reads] at he

theorem reads_of_stop (hp : Plain net rank) (hs : (net.state c.state).isRuleStop = true) (t : Int) :
    reads net t c = [] := by
  rw [List.eq_nil_iff_forall_not_mem]
  intro d hd
  obtain ⟨e, he, _⟩ := List.mem_map.1 hd
  obtain ⟨hm, hr⟩ := List.mem_filter.1 he
  have := (hp.reading c.state e (Array.mem_toList_iff.1 hm) (Edge.isEpsilon_of_reads hr)).1
  simp_all

theorem slides_glide (hp : Plain net rank) (hc : c.context ≠ .null) (fuel : Nat) (p : Place) :
    glide net.state (fuel + 1) p = p ∨
      ∃ q, glide net.state (fuel + 1) p = glide net.state fuel q ∧ Slides net (put c p) (put c q) := by
  obtain ⟨n, rets⟩ := p
  simp only [glide]
  split
  · rename_i hs
    cases rets with
    | nil => exact .inl rfl
    | cons ret rets =>
      refine .inr ⟨_, rfl, ?_, reads_of_stop hp hs⟩
      rw [put_cons hc]
      simp [slips, put, hs]
  · rename_i hs
    split
    · rename_i t o he
      refine .inr ⟨_, rfl, ?_, fun t => ?_⟩
      · simp [slips, put, hs, Network.edges, he, slip]
      · simp [reads, put, Network.edges, he, Label.reads]
    · rename_i t r p ret he
      refine .inr ⟨_, rfl, ?_, fun t => ?_⟩
      · simp [slips, put, hs, Network.edges, he, slip]
      · simp [reads, put, Network.edges, he, Label.reads]
    · exact .inl rfl

theorem path_glide (hp : Plain net rank) (hc : c.context ≠ .null) (fuel : Nat) (p : Place) :
    Path net (put c p) [] (put c (glide net.state fuel p)) := by
  induction fuel generalizing p with
  | zero => exact .refl _
  | succ fuel ih =>
    rcases slides_glide hp hc fuel p with h | ⟨q, h, hs⟩
    · rw [h]
      exact .refl _
    · rw [h]
      exact hs.path.trans (ih q)

theorem glide_of_path (hp : Plain net rank) (hc : c.context ≠ .null) (fuel : Nat) (p : Place)
    {u : List Char} {x : LexConfig} (hx : Path net (put c p) u x) :
    (u = [] ∧ Path net x [] (put c (glide net.state fuel p))) ∨
      Path net (put c (glide net.state fuel p)) u x := by
  induction fuel generalizing p with
  | zero => exact .inr hx
  | succ fuel ih =>
    rcases slides_glide hp hc fuel p with h | ⟨q, h, hs⟩
    · rw [h]
      exact .inr hx
    · rw [h]
      rcases hs.of_path hx with ⟨rfl, rfl⟩ | hx
      · exact .inl ⟨rfl, hs.path.trans (path_glide hp hc fuel q)⟩
      · exact ih q hx

theorem path_settle (hp : Plain net rank) (hc : c.context ≠ .null) (p : Place) :
    Path net (put c p) [] (put c (settle net.state p)) := path_glide hp hc glideBound p

theorem settle_of_path (hp : Plain net rank) (hc : c.context ≠ .null) {p : Place} {u : List Char}
    {x : LexConfig} (hx : Path net (put c p) u x) :
    (u = [] ∧ Path net x [] (put c (settle net.state p))) ∨ Path net (put c (settle net.state p)) u x :=
  glide_of_path hp hc glideBound p hx

/-- How a path that spells `u` and ends at `x` lies to a pattern that ends at `d`: it stops within a
word of the pattern, which can then be completed, or it goes on behind one. -/
def Along (net : Network) (pat : Pattern) (u : List Char) (x d : LexConfig) : Prop :=
  (∃ v, pat.Matches (u ++ v) ∧ Path net x v d) ∨
    ∃ v w, u = v ++ w ∧ pat.Matches v ∧ Path net d w x

/-- The paths from some places spell the words of a pattern up to a last place. -/
structure Spells (net : Network) (c : LexConfig) (pat : Pattern) (ps : List Place) (q : Place) :
    Prop where
  inhabited : ∃ u, pat.Matches u
  sound : ∀ u, pat.Matches u → ∃ p ∈ ps, Path net (put c p) u (put c q)
  complete : ∀ p ∈ ps, ∀ u x, Path net (put c p) u x → Along net pat u x (put c q)

namespace Spells

variable {pat p₁ p₂ : Pattern} {ps : List Place} {p q : Place}

theorem exists_path (h : Spells net c pat [p] q) :
    ∃ u, pat.Matches u ∧ Path net (put c p) u (put c q) := by
  obtain ⟨u, hu⟩ := h.inhabited
  obtain ⟨r, hr, hx⟩ := h.sound u hu
  exact ⟨u, hu, List.mem_singleton.1 hr ▸ hx⟩

theorem path (h : Spells net c pat [p] q) {u : List Char} (hu : pat.Matches u) :
    Path net (put c p) u (put c q) := by
  obtain ⟨r, hr, hx⟩ := h.sound u hu
  exact List.mem_singleton.1 hr ▸ hx

theorem congr (h : Spells net c p₁ ps q) (he : ∀ u, p₁.Matches u ↔ p₂.Matches u) :
    Spells net c p₂ ps q where
  inhabited := h.inhabited.imp fun u hu => (he u).1 hu
  sound u hu := h.sound u ((he u).2 hu)
  complete r hr u x hx := by
    rcases h.complete r hr u x hx with ⟨v, hv, hx⟩ | ⟨v, w, hu, hv, hx⟩
    · exact .inl ⟨v, (he _).1 hv, hx⟩
    · exact .inr ⟨v, w, hu, (he _).1 hv, hx⟩

theorem empty (p : Place) : Spells net c .empty [p] p where
  inhabited := ⟨[], .empty⟩
  sound u hu := by
    cases hu
    exact ⟨p, List.mem_singleton_self p, .refl _⟩
  complete r hr u x hx := .inr ⟨[], u, rfl, .empty, List.mem_singleton.1 hr ▸ hx⟩

theorem one {k : CharClass} {e : Edge} (hstop : (net.state p.1).isRuleStop = false)
    (he : (net.edges p.1).toList = [e]) (hk : k.spells e.label = true) (hs : k.has k.sample = true) :
    Spells net c (.one k) [p] (e.target, p.2) := by
  have hread : ∀ a : Char, k.has a = true → put c (e.target, p.2) ∈ reads net a.toNat (put c p) := by
    intro a ha
    rw [← CharClass.reads_of_spells hk] at ha
    simp [reads, put, he, ha]
  have hpath : ∀ a : Char, k.has a = true → Path net (put c p) [a] (put c (e.target, p.2)) :=
    fun a ha => .read (hread a ha) (.refl _)
  have hslip : slips net (put c p) = [] := by
    have : slip net (put c p) e = none := by
      unfold CharClass.spells at hk
      unfold slip
      cases hl : e.label <;> simp_all
    simp [slips, put, hstop, he] at this ⊢
    exact this
  refine ⟨⟨[k.sample], .one hs⟩, ?_, ?_⟩
  · rintro _ (_ | ha)
    exact ⟨p, List.mem_singleton_self p, hpath _ ha⟩
  · intro r hr u x hx
    rw [List.mem_singleton.1 hr] at hx
    rcases Path.unfold_iff.1 hx with ⟨rfl, rfl⟩ | ⟨d, hd, _⟩ | ⟨a, v, rfl, d, hd, hx⟩
    · exact .inl ⟨[k.sample], .one hs, hpath _ hs⟩
    · simp [hslip] at hd
    · obtain ⟨e', he', rfl⟩ := List.mem_map.1 hd
      obtain ⟨hm, hr⟩ := List.mem_filter.1 he'
      obtain rfl : e' = e := by simpa [put, he] using hm
      rw [CharClass.reads_of_spells hk] at hr
      exact .inr ⟨[a], v, rfl, .one hr, hx⟩

theorem seq {m : Place} (h₁ : Spells net c p₁ ps m) (h₂ : Spells net c p₂ [m] q) :
    Spells net c (.seq p₁ p₂) ps q where
  inhabited := by
    obtain ⟨u, hu⟩ := h₁.inhabited
    obtain ⟨v, hv⟩ := h₂.inhabited
    exact ⟨u ++ v, .seq hu hv⟩
  sound w hw := by
    obtain ⟨_ | _⟩ := hw
    rename_i u v hu hv
    obtain ⟨r, hr, hx⟩ := h₁.sound u hu
    exact ⟨r, hr, hx.trans (h₂.path hv)⟩
  complete r hr u x hx := by
    rcases h₁.complete r hr u x hx with ⟨v, hv, hx⟩ | ⟨v, w, rfl, hv, hx⟩
    · obtain ⟨w, hw, hy⟩ := h₂.exists_path
      exact .inl ⟨v ++ w, by rw [← List.append_assoc]; exact .seq hv hw, hx.trans hy⟩
    · rcases h₂.complete m (List.mem_singleton_self m) w x hx with ⟨t, ht, hx⟩ | ⟨s, t, rfl, hs, hx⟩
      · exact .inl ⟨t, by rw [List.append_assoc]; exact .seq hv ht, hx⟩
      · exact .inr ⟨v ++ s, t, by simp, .seq hv hs, hx⟩

theorem alt (h₁ : Spells net c p₁ [p] q) (h₂ : Spells net c p₂ ps q) :
    Spells net c (.alt p₁ p₂) (p :: ps) q where
  inhabited := h₁.inhabited.imp fun _ hu => .left hu
  sound u hu := by
    rcases hu with _ | _ | _ | hu | hu
    · exact ⟨p, List.mem_cons_self, h₁.path hu⟩
    · obtain ⟨r, hr, hx⟩ := h₂.sound u hu
      exact ⟨r, List.mem_cons_of_mem p hr, hx⟩
  complete r hr u x hx := by
    rcases List.mem_cons.1 hr with rfl | hr
    · rcases h₁.complete r (List.mem_singleton_self r) u x hx with ⟨v, hv, hx⟩ | ⟨v, w, hu, hv, hx⟩
      · exact .inl ⟨v, .left hv, hx⟩
      · exact .inr ⟨v, w, hu, .left hv, hx⟩
    · rcases h₂.complete r hr u x hx with ⟨v, hv, hx⟩ | ⟨v, w, hu, hv, hx⟩
      · exact .inl ⟨v, .right hv, hx⟩
      · exact .inr ⟨v, w, hu, .right hv, hx⟩

section Gliding

variable (hp : Plain net rank) (hc : c.context ≠ .null)
include hp hc

theorem of_settle (h : Spells net c pat [settle net.state p] q) : Spells net c pat [p] q where
  inhabited := h.inhabited
  sound u hu :=
    ⟨p, List.mem_singleton_self p, (path_settle hp hc p).trans (h.path hu)⟩
  complete r hr u x hx := by
    rw [List.mem_singleton.1 hr] at hx
    rcases settle_of_path hp hc hx with ⟨rfl, hy⟩ | hx
    · obtain ⟨v, hv, hz⟩ := h.exists_path
      exact .inl ⟨v, hv, hy.trans hz⟩
    · exact h.complete _ (List.mem_singleton_self _) u x hx

theorem at_settle (h : Spells net c pat [p] q) (hn : pat.nullable = false) :
    Spells net c pat [settle net.state p] q where
  inhabited := h.inhabited
  sound u hu := by
    refine ⟨_, List.mem_singleton_self _, ?_⟩
    rcases settle_of_path hp hc (h.path hu) with ⟨rfl, _⟩ | hx
    · exact absurd rfl (hu.ne_nil hn)
    · exact hx
  complete r hr u x hx := by
    rw [List.mem_singleton.1 hr] at hx
    exact h.complete p (List.mem_singleton_self p) u x ((path_settle hp hc p).trans hx)

theorem to_settle (h : Spells net c pat ps q) : Spells net c pat ps (settle net.state q) where
  inhabited := h.inhabited
  sound u hu := by
    obtain ⟨r, hr, hx⟩ := h.sound u hu
    exact ⟨r, hr, by simpa using hx.trans (path_settle hp hc q)⟩
  complete r hr u x hx := by
    rcases h.complete r hr u x hx with ⟨v, hv, hx⟩ | ⟨v, w, rfl, hv, hx⟩
    · exact .inl ⟨v, hv, by simpa using hx.trans (path_settle hp hc q)⟩
    · rcases settle_of_path hp hc hx with ⟨rfl, hy⟩ | hx
      · exact .inl ⟨[], by simpa using hv, hy⟩
      · exact .inr ⟨v, w, rfl, hv, hx⟩

end Gliding

theorem slips_branches (h : branches net.state p ≠ []) :
    slips net (put c p) = (branches net.state p).map (put c) ∧ ∀ t, reads net t (put c p) = [] := by
  unfold branches at h
  split at h
  · contradiction
  · rename_i hs
    split at h
    · rename_i he
      have hlabel : ∀ e ∈ (net.edges p.1).toList, ∃ o, e.label = .epsilon o := by
        intro e hm
        have := List.all_eq_true.1 he e hm
        cases hl : e.label <;> simp_all
      constructor
      · have hslip : ∀ e ∈ (net.edges p.1).toList,
            slip net (put c p) e = some (put c (e.target, p.2)) := by
          intro e hm
          obtain ⟨o, ho⟩ := hlabel e hm
          simp [slip, ho, put]
        simp only [slips, branches, put, hs, he, Bool.false_eq_true, if_false, if_true, List.map_map]
        exact List.filterMap_eq_map_iff_forall_eq_some.2 hslip
      · intro t
        simp only [reads, put, List.map_eq_nil_iff, List.filter_eq_nil_iff]
        intro e hm
        obtain ⟨o, ho⟩ := hlabel e hm
        simp [ho, Label.reads]
    · contradiction

theorem branch_iff (h : branches net.state p ≠ []) {u : List Char} {x : LexConfig} :
    Path net (put c p) u x ↔
      (u = [] ∧ put c p = x) ∨ ∃ b ∈ branches net.state p, Path net (put c b) u x := by
  obtain ⟨hs, hr⟩ := slips_branches (c := c) h
  rw [Path.unfold_iff]
  simp [hs, hr]

theorem branch (hb : branches net.state p ≠ []) (h : Spells net c pat (branches net.state p) q) :
    Spells net c pat [p] q where
  inhabited := h.inhabited
  sound u hu := by
    obtain ⟨b, hm, hx⟩ := h.sound u hu
    exact ⟨p, List.mem_singleton_self p, (branch_iff hb).2 (.inr ⟨b, hm, hx⟩)⟩
  complete r hr u x hx := by
    rw [List.mem_singleton.1 hr] at hx
    rcases (branch_iff hb).1 hx with ⟨rfl, rfl⟩ | ⟨b, hm, hx⟩
    · obtain ⟨v, hv⟩ := h.inhabited
      obtain ⟨b, hm, hy⟩ := h.sound v hv
      exact .inl ⟨v, hv, (branch_iff hb).2 (.inr ⟨b, hm, hy⟩)⟩
    · exact h.complete b hm u x hx

theorem of_fan (hp : Plain net rank) (hc : c.context ≠ .null) (hf : fan net.state ps ≠ [])
    (h : Spells net c pat (fan net.state ps) q) : Spells net c pat ps q := by
  unfold fan at h hf
  split at h
  · exact (branch hf h).of_settle hp hc
  · exact h

theorem star {entry body exit : Place} (hb : branches net.state entry = [body, exit])
    (h : Spells net c pat [body] entry) (hn : pat.nullable = false) :
    Spells net c (.star pat) [entry] exit := by
  have hne : branches net.state entry ≠ [] := by simp [hb]
  have hexit : ∀ {u x}, Path net (put c exit) u x → Path net (put c entry) u x := fun hx =>
    (branch_iff hne).2 (.inr ⟨exit, by simp [hb], hx⟩)
  have hbody : ∀ {u x}, Path net (put c body) u x → Path net (put c entry) u x := fun hx =>
    (branch_iff hne).2 (.inr ⟨body, by simp [hb], hx⟩)
  have hround : ∀ {u}, pat.Matches u → Path net (put c entry) u (put c entry) := fun hu =>
    hbody (h.path hu)
  refine ⟨⟨[], .none⟩, fun u hu => ⟨entry, List.mem_singleton_self entry, ?_⟩, ?_⟩
  · generalize hs : pat.star = s at hu
    induction hu with
    | none => exact hexit (.refl _)
    | more hu _ _ ih =>
      cases hs
      exact (hround hu).trans (ih rfl)
    | _ => cases hs
  · intro r hr u x hx
    rw [List.mem_singleton.1 hr] at hx
    -- by induction on the length of what is spelled: each round takes a character
    induction hl : u.length using Nat.strongRecOn generalizing u with
    | _ n ih =>
      rcases (branch_iff hne).1 hx with ⟨rfl, rfl⟩ | ⟨b, hm, hx⟩
      · exact .inl ⟨[], .none, hexit (.refl _)⟩
      · rw [hb, List.mem_cons, List.mem_singleton] at hm
        rcases hm with rfl | rfl
        · rcases h.complete b (List.mem_singleton_self b) u x hx with ⟨v, hv, hx⟩ | ⟨v, w, rfl, hv, hx⟩
          · refine .inl ⟨v, ?_, by simpa using hx.trans (hexit (.refl _))⟩
            simpa using Pattern.Matches.more hv .none
          · have hlen : w.length < n := by
              have := List.length_pos_iff.2 (hv.ne_nil hn)
              rw [← hl, List.length_append]
              omega
            rcases ih w.length hlen w hx rfl with ⟨t, ht, hx⟩ | ⟨s, t, rfl, hs, hx⟩
            · exact .inl ⟨t, by rw [List.append_assoc]; exact .more hv ht, hx⟩
            · exact .inr ⟨v ++ s, t, by simp, .more hv hs, hx⟩
        · exact .inr ⟨[], u, rfl, .none, hx⟩

theorem plus {entry body exit : Place} (hb : branches net.state entry = [body, exit])
    (h₁ : Spells net c pat ps entry) (h₂ : Spells net c pat [body] entry)
    (hn : pat.nullable = false) : Spells net c (.plus pat) ps exit := by
  refine (h₁.seq (star hb h₂ hn)).congr fun u => ⟨?_, ?_⟩
  · rintro (_ | _ | ⟨hu, hv⟩)
    exact .plus hu hv
  · rintro (_ | _ | _ | _ | _ | _ | _ | ⟨hu, hv⟩)
    exact .seq hu hv

end Spells

theorem single_of_walk {pat : Pattern} {ps : List Place} {q : Place}
    (hs : ∀ p₁ p₂, pat ≠ .seq p₁ p₂) (ha : ∀ p₁ p₂, pat ≠ .alt p₁ p₂)
    (h : walk net.state pat ps = some q) : ∃ p, ps = [p] := by
  cases pat with
  | seq p₁ p₂ => exact absurd rfl (hs p₁ p₂)
  | alt p₁ p₂ => exact absurd rfl (ha p₁ p₂)
  | _ =>
    rcases ps with _ | ⟨p, _ | ⟨p', ps⟩⟩
    · simp [walk] at h
    · exact ⟨p, rfl⟩
    · simp [walk] at h

theorem walk_spells (hp : Plain net rank) (hc : c.context ≠ .null) {pat : Pattern}
    {ps : List Place} {q : Place} (h : walk net.state pat ps = some q) : Spells net c pat ps q := by
  induction pat generalizing ps q with
  | empty =>
    obtain ⟨p, rfl⟩ := single_of_walk (by simp) (by simp) h
    obtain rfl : p = q := by simpa [walk] using h
    exact .empty p
  | one k =>
    obtain ⟨p, rfl⟩ := single_of_walk (by simp) (by simp) h
    simp only [walk] at h
    split at h
    · contradiction
    · rename_i hs
      split at h
      · rename_i e he
        split at h
        · rename_i hk
          obtain ⟨hk, hsample⟩ := Bool.and_eq_true_iff.1 hk
          obtain rfl : (e.target, (settle net.state p).2) = q := Option.some.inj h
          exact (Spells.one (by simpa using hs) he hk hsample).of_settle hp hc
        · contradiction
      · contradiction
  | seq p₁ p₂ ih₁ ih₂ =>
    obtain ⟨m, h₁, h₂⟩ := Option.bind_eq_some_iff.1 h
    exact (ih₁ h₁).seq (ih₂ h₂)
  | alt p₁ p₂ ih₁ ih₂ =>
    simp only [walk] at h
    split at h
    · rename_i x y zs hf
      split at h
      · rename_i a b ha hb
        split at h
        · rename_i hab
          obtain rfl : settle net.state a = q := Option.some.inj h
          have h₂ := (ih₂ hb).to_settle hp hc
          rw [← hab] at h₂
          exact (hf ▸ ((ih₁ ha).to_settle hp hc).alt h₂).of_fan hp hc (by simp [hf])
        · contradiction
      · contradiction
    · contradiction
  | star p ih =>
    obtain ⟨x, rfl⟩ := single_of_walk (by simp) (by simp) h
    simp only [walk] at h
    split at h
    · rename_i body exit hb
      split at h
      · rename_i hk
        obtain ⟨hn, hk⟩ := Bool.and_eq_true_iff.1 hk
        obtain rfl : exit = q := Option.some.inj h
        obtain ⟨t, ht, hs⟩ := Option.map_eq_some_iff.1 (of_decide_eq_true hk)
        have hbody := (ih ht).to_settle hp hc
        rw [hs] at hbody
        exact (Spells.star hb hbody (by simpa using hn)).of_settle hp hc
      · contradiction
    · contradiction
  | plus p ih =>
    obtain ⟨x, rfl⟩ := single_of_walk (by simp) (by simp) h
    simp only [walk] at h
    split at h
    · rename_i t ht
      split at h
      · rename_i body exit hb
        split at h
        · rename_i hk
          obtain ⟨hn, hk⟩ := Bool.and_eq_true_iff.1 hk
          obtain rfl : exit = q := Option.some.inj h
          have hn : p.nullable = false := by simpa using hn
          have h₁ := (ih ht).to_settle hp hc
          have h₂ := h₁.at_settle hp hc hn
          rw [← of_decide_eq_true hk] at h₂
          exact .plus hb h₁ (h₂.of_settle hp hc) hn
        · contradiction
      · contradiction
    · contradiction

end Lexing

end Throbac
