import Mathlib.Data.Finset.Card
import Mathlib.Logic.Relation
import Throbac.Prediction.Closure
import Throbac.Proofs.Grounded
import Throbac.Proofs.Lookahead.Symbols

/-!
# The search for the symbols that can come next

The search goes along silent moves of the network, with the stack of calls it has made above the stack
it started with. It goes to every place once, so it ends; and it finds just what can be read first at
the places it comes to. A rule that is being called is not called again, which loses nothing where no
rule calls itself before something is read.
-/
namespace Throbac

namespace Network

variable (net : Network)

/-- A silent move. The stack holds return states, the innermost first. -/
inductive Move (allowed : Label → Prop) : Nat × List Nat → Nat × List Nat → Prop
  | slip {n : Nat} {γ : List Nat} {e : Edge} (hstop : (net.state n).isRuleStop = false)
    (he : e ∈ net.edges n) (hsilent : e.isEpsilon = true) (hcall : e.label.follow? = none)
    (hallowed : allowed e.label) : Move allowed (n, γ) (e.target, γ)
  | call {n : Nat} {γ : List Nat} {e : Edge} {ret : Nat} (hstop : (net.state n).isRuleStop = false)
    (he : e ∈ net.edges n) (hcall : e.label.follow? = some ret) :
    Move allowed (n, γ) (e.target, ret :: γ)
  | back {n r : Nat} {γ : List Nat} (hstop : (net.state n).isRuleStop = true) :
    Move allowed (n, r :: γ) (r, γ)

abbrev Glide (allowed : Label → Prop) : Nat × List Nat → Nat × List Nat → Prop :=
  Relation.ReflTransGen (net.Move allowed)

abbrev Glides : Nat × List Nat → Nat × List Nat → Prop := net.Glide fun _ => True

/-- The network is one of a grammar: edges stay within a rule, a call leads to the start of a rule and
returns to the rule of the caller, and all labels are proper. -/
structure Formed : Prop where
  /-- No state is as far as the bottom of a stack. -/
  small : (net.states.size : Int) ≤ StackContext.bottom
  target : ∀ n, (net.state n).isRuleStop = false → ∀ e ∈ net.edges n, e.target < net.states.size
  stays : ∀ n, (net.state n).isRuleStop = false → ∀ e ∈ net.edges n, e.label.follow? = none →
    (net.state e.target).rule = (net.state n).rule
  calls : ∀ n, (net.state n).isRuleStop = false → ∀ e ∈ net.edges n, ∀ ret, e.label.follow? = some ret →
    ret < net.states.size ∧ (net.state ret).rule = (net.state n).rule ∧
      ∃ r : Nat, net.starts[r]? = some e.target ∧ (net.state e.target).rule = r
  labels : ∀ n, (net.state n).isRuleStop = false → ∀ e ∈ net.edges n, e.label.Proper net.maxSymbol

/-- All complements on the edges of the network can be taken without a loss. -/
def Fits : Prop :=
  ∀ n, (net.state n).isRuleStop = false → ∀ e ∈ net.edges n, e.label.Fits net.maxSymbol

def NoLeftRecursion : Prop :=
  ∀ k n γ, net.Glides (k, []) (n, γ) → (net.state n).isRuleStop = false →
    ∀ e ∈ net.edges n, ∀ ret, e.label.follow? = some ret → e.target ≠ k

/-- The symbol can be the first that is read from a state on, under a stack of return states. -/
def Meets (c : Nat × List Nat) (x : Int) : Prop :=
  ∃ d, net.Glides c d ∧ (net.state d.1).isRuleStop = false ∧
    ∃ e ∈ net.edges d.1, e.label.reads x Symbol.minUser net.maxSymbol = true

/-- The end of the outermost rule can be reached before anything is read. -/
def Ends (c : Nat × List Nat) : Prop := ∃ m, net.Glides c (m, []) ∧ (net.state m).isRuleStop = true

end Network

namespace StackContext

def ofList (root : StackContext) (γ : List Nat) : StackContext := γ.foldr (fun r c => single c r) root

end StackContext

namespace Lookahead

open Network

/-- What a search marks the end of its outermost rule with: it depends on whether callers are known. -/
inductive Bottom : StackContext → Int → Prop
  | alone : Bottom .null Symbol.epsilon
  | called : Bottom .empty Symbol.eof

variable {net : Network} {root : StackContext} {mark : Int} {start : Nat × List Nat} {base : List Nat}

theorem Bottom.push_ofList (hroot : Bottom root mark) {r : Nat} (hr : (r : Int) ≠ StackContext.bottom)
    (γ : List Nat) : (StackContext.ofList root γ).push r = .ofList root (r :: γ) := by
  cases γ with
  | nil =>
    cases hroot
    · exact if_neg hr
    · rfl
  | cons => rfl

theorem Bottom.ofList_inj (hroot : Bottom root mark) : ∀ {γ δ : List Nat},
    StackContext.ofList root γ = .ofList root δ → γ = δ
  | [], [], _ => rfl
  | [], r :: δ, h => by cases hroot <;> cases h
  | r :: γ, [], h => by cases hroot <;> cases h
  | r :: γ, q :: δ, h => by
    obtain ⟨hγ, hr⟩ := StackContext.single.inj h
    rw [hroot.ofList_inj hγ, Int.ofNat.inj hr]

def place (root : StackContext) (c : Nat × List Nat) : Nat × StackContext := (c.1, .ofList root c.2)

theorem Bottom.place_inj (hroot : Bottom root mark) {c d : Nat × List Nat} (h : place root c = place root d) :
    c = d := by
  obtain ⟨hn, hγ⟩ := Prod.mk.inj h
  exact Prod.ext hn (hroot.ofList_inj hγ)

/-! ## What the search has done -/

/-- All that can be done at a place is done. -/
structure Done (net : Network) (root : StackContext) (mark : Int) (s : Search) (c : Nat × List Nat) : Prop where
  moves : ∀ d, net.Move (fun _ => True) c d → place root d ∈ s.busy
  reads : (net.state c.1).isRuleStop = false → ∀ e ∈ net.edges c.1, ∀ x,
    e.label.reads x Symbol.minUser net.maxSymbol = true → s.look.Contains x
  ends : (net.state c.1).isRuleStop = true → c.2 = [] → s.look.Contains mark

/-- The search has gone on: it forgets nothing, and where it was since then all is done, unless a rule
calls itself. -/
structure Advance (net : Network) (root : StackContext) (mark : Int) (s s' : Search) : Prop where
  busy : ∀ c ∈ s.busy, c ∈ s'.busy
  look : ∀ x, s.look.Contains x → s'.look.Contains x
  done : net.NoLeftRecursion → ∀ c, place root c ∈ s'.busy → place root c ∉ s.busy → Done net root mark s' c

theorem Advance.refl (s : Search) : Advance net root mark s s :=
  ⟨fun _ h => h, fun _ h => h, fun _ _ h h' => absurd h h'⟩

theorem Advance.keep {s s' : Search} (h : Advance net root mark s s') {c : Nat × List Nat}
    (hc : Done net root mark s c) : Done net root mark s' c :=
  ⟨fun d hd => h.busy _ (hc.moves d hd), fun hstop e he x hx => h.look x (hc.reads hstop e he x hx),
    fun hstop hnil => h.look mark (hc.ends hstop hnil)⟩

theorem Advance.trans {s s' s'' : Search} (h : Advance net root mark s s') (h' : Advance net root mark s' s'') :
    Advance net root mark s s'' := by
  refine ⟨fun c hc => h'.busy c (h.busy c hc), fun x hx => h'.look x (h.look x hx), fun hrec c hc hnot => ?_⟩
  by_cases hmid : place root c ∈ s'.busy
  · exact h'.keep (h.done hrec c hmid hnot)
  · exact h'.done hrec c hc hmid

/-- What was found is right: it can be read first from the start, or marks the end. -/
structure Sound (net : Network) (mark : Int) (start : Nat × List Nat) (s : Search) : Prop where
  apart : SymbolSet.Apart s.look.parts
  found : ∀ x, s.look.Contains x → net.Meets start x ∨ x = mark ∧ net.Ends start

/-- Work at a place leaves only right symbols and does all that can be done there. -/
def Completes (net : Network) (root : StackContext) (mark : Int) (start c : Nat × List Nat) (m : LookM Unit)
    (s : Search) : Prop :=
  ∃ s', m s = .ok ⟨⟩ s' ∧ Sound net mark start s' ∧ Advance net root mark s s' ∧
    (net.NoLeftRecursion → Done net root mark s' c)

theorem Completes.enter (hroot : Bottom root mark) {c : Nat × List Nat} {m : LookM Unit} {s : Search}
    (h : Completes net root mark start c m { s with busy := place root c :: s.busy }) :
    ∃ s', m { s with busy := place root c :: s.busy } = .ok ⟨⟩ s' ∧ Sound net mark start s' ∧
      Advance net root mark s s' ∧ place root c ∈ s'.busy := by
  obtain ⟨s', hm, hsound, hadv, hc⟩ := h
  refine ⟨s', hm, hsound, ⟨fun d hd => hadv.busy d (List.mem_cons_of_mem _ hd), hadv.look, fun hrec d hd hnot => ?_⟩,
    hadv.busy _ List.mem_cons_self⟩
  by_cases hnew : place root d = place root c
  · rw [hroot.place_inj hnew]
    exact hc hrec
  · exact hadv.done hrec d hd (by simp [hnew, hnot])

variable (root) in
theorem Sound.foundAll {s : Search} (hs : Sound net mark start s) {x : SymbolSet}
    (hx : ∀ v ∈ x.parts, v.lo < v.hi)
    (hfound : ∀ y, x.Contains y → net.Meets start y ∨ y = mark ∧ net.Ends start) :
    Sound net mark start { s with look := s.look.union x } ∧
      Advance net root mark s { s with look := s.look.union x } ∧
      ∀ y, x.Contains y → (s.look.union x).Contains y := by
  obtain ⟨hapart, hmem⟩ := SymbolSet.apart_union hs.apart hx
  refine ⟨⟨hapart, fun y hy => ?_⟩, ⟨fun _ h => h, fun y hy => (hmem y).2 (.inl hy), ?_⟩,
    fun y hy => (hmem y).2 (.inr hy)⟩
  · rcases (hmem y).1 hy with hy | hy
    · exact hs.found y hy
    · exact hfound y hy
  · exact fun _ _ hc hnot => absurd hc hnot

/-! ## The calls of the search -/

/-- The calls in progress, innermost first, by the start of the rule and the return state: the stack
is theirs above a part of the stack at the start, no two are of one rule, and each has led to the
present state without reading. -/
structure Pending (net : Network) (base : List Nat) (c : Nat × List Nat) (called : List Int)
    (calls : List (Nat × Nat)) : Prop where
  stack : ∃ j, c.2 = calls.map Prod.snd ++ base.drop j
  rules : called = calls.map fun k => (net.state k.1).rule
  distinct : called.Nodup
  starts : ∀ k ∈ calls, ∃ r : Nat, net.starts[r]? = some k.1 ∧ (net.state k.1).rule = r
  rets : ∀ k ∈ calls, k.2 < net.states.size
  path : ∀ i k, calls[i]? = some k → net.Glides (k.1, []) (c.1, (calls.take i).map Prod.snd)

/-- The rule that a place belongs to below all calls. -/
def home (net : Network) (c : Nat × List Nat) : Int := (net.state (c.2.getLast?.getD c.1)).rule

theorem home_move (hf : net.Formed) {c d : Nat × List Nat} (h : net.Move (fun _ => True) c d) :
    home net d = home net c := by
  cases h with
  | @slip n γ e hstop he hsilent hcall _ =>
    cases γ with
    | nil => exact hf.stays n hstop e he hcall
    | cons => rfl
  | @call n γ e ret hstop he hcall =>
    cases γ with
    | nil => exact (hf.calls n hstop e he ret hcall).2.1
    | cons => rfl
  | @back n r γ hstop => cases γ <;> rfl

theorem home_glides (hf : net.Formed) {c d : Nat × List Nat} (h : net.Glides c d) : home net d = home net c := by
  induction h with
  | refl => rfl
  | tail _ hmove ih => rw [home_move hf hmove, ih]

namespace Pending

variable {n : Nat} {γ : List Nat} {called : List Int} {calls : List (Nat × Nat)} {e : Edge}

theorem slip (h : Pending net base (n, γ) called calls) (hstop : (net.state n).isRuleStop = false)
    (he : e ∈ net.edges n) (hsilent : e.isEpsilon = true) (hcall : e.label.follow? = none) :
    Pending net base (e.target, γ) called calls :=
  { h with path := fun i k hi => (h.path i k hi).tail (.slip hstop he hsilent hcall trivial) }

theorem call (hf : net.Formed) (h : Pending net base (n, γ) called calls)
    (hstop : (net.state n).isRuleStop = false) (he : e ∈ net.edges n) {ret : Nat}
    (hcall : e.label.follow? = some ret) (hnew : (net.state e.target).rule ∉ called) :
    Pending net base (e.target, ret :: γ) ((net.state e.target).rule :: called) ((e.target, ret) :: calls) := by
  obtain ⟨hret, -, hstart⟩ := hf.calls n hstop e he ret hcall
  obtain ⟨j, hγ⟩ := h.stack
  refine ⟨⟨j, congrArg (ret :: ·) hγ⟩, congrArg (_ :: ·) h.rules, List.nodup_cons.2 ⟨hnew, h.distinct⟩,
    List.forall_mem_cons.2 ⟨hstart, h.starts⟩, List.forall_mem_cons.2 ⟨hret, h.rets⟩, ?_⟩
  intro i k hi
  cases i with
  | zero =>
    cases hi
    exact .refl
  | succ i => exact (h.path i k hi).tail (.call hstop he hcall)

theorem back (hf : net.Formed) {r : Nat} (h : Pending net base (n, r :: γ) called calls)
    (hstop : (net.state n).isRuleStop = true) :
    ∃ calls', Pending net base (r, γ) (called.filter (· ≠ (net.state n).rule)) calls' := by
  obtain ⟨⟨j, hγ⟩, hrules, hdistinct, hstarts, hrets, hpath⟩ := h
  subst hrules
  cases calls with
  | nil =>
    refine ⟨[], ⟨j + 1, ?_⟩, rfl, .nil, by simp, by simp, by simp⟩
    rw [List.map_nil, List.nil_append, ← List.tail_drop, ← List.nil_append (base.drop j)]
    exact congrArg List.tail hγ
  | cons k calls =>
    obtain ⟨hk, hdistinct⟩ := List.nodup_cons.1 hdistinct
    obtain ⟨hr, hγ⟩ := List.cons.inj hγ
    have hrule : (net.state n).rule = (net.state k.1).rule := home_glides hf (hpath 0 k rfl)
    have hrest : (List.map (fun k => (net.state k.1).rule) (k :: calls)).filter (· ≠ (net.state n).rule) =
        calls.map fun k => (net.state k.1).rule := by
      rw [List.map_cons, List.filter_cons_of_neg (by simp [hrule]), List.filter_eq_self]
      intro q hq
      rw [decide_eq_true_eq, hrule]
      rintro rfl
      exact hk hq
    rw [hrest]
    refine ⟨calls, ⟨j, hγ⟩, rfl, hdistinct, fun q hq => hstarts q (List.mem_cons_of_mem k hq),
      fun q hq => hrets q (List.mem_cons_of_mem k hq), fun i q hi => ?_⟩
    have hlong := hpath (i + 1) q hi
    rw [List.take_succ_cons, List.map_cons, ← hr] at hlong
    exact hlong.tail (.back hstop)

theorem not_mem (hf : net.Formed) (hrec : net.NoLeftRecursion) (h : Pending net base (n, γ) called calls)
    (hstop : (net.state n).isRuleStop = false) (he : e ∈ net.edges n) {ret : Nat}
    (hcall : e.label.follow? = some ret) : (net.state e.target).rule ∉ called := by
  rw [h.rules]
  intro hmem
  obtain ⟨k, hk, hrule⟩ := List.mem_map.1 hmem
  obtain ⟨i, hi⟩ := List.getElem?_of_mem hk
  obtain ⟨-, -, r, hr, hrule'⟩ := hf.calls n hstop e he ret hcall
  obtain ⟨q, hq, hrule''⟩ := h.starts k hk
  obtain rfl : r = q := by omega
  exact hrec k.1 n _ (h.path i k hi) hstop e he ret hcall (Option.some.inj (hr.symm.trans hq))

theorem lt_size (hbase : ∀ r ∈ base, r < net.states.size) (h : Pending net base (n, γ) called calls) :
    ∀ r ∈ γ, r < net.states.size := by
  obtain ⟨j, hγ⟩ := h.stack
  intro r hr
  rcases List.mem_append.1 (hγ ▸ hr : r ∈ calls.map Prod.snd ++ base.drop j) with hr | hr
  · obtain ⟨k, hk, rfl⟩ := List.mem_map.1 hr
    exact h.rets k hk
  · exact hbase r (List.mem_of_mem_drop hr)

end Pending

/-! ## Room for the search -/

/-- All stacks of states with at most the given number of calls. -/
def shortStacks (size : Nat) : Nat → List (List Nat)
  | 0 => [[]]
  | k + 1 => [] :: (List.range size).flatMap fun r => (shortStacks size k).map (r :: ·)

theorem mem_shortStacks {size k : Nat} {γ : List Nat} (hlen : γ.length ≤ k) (hγ : ∀ r ∈ γ, r < size) :
    γ ∈ shortStacks size k := by
  induction k generalizing γ with
  | zero => simp_all [shortStacks]
  | succ k ih =>
    cases γ with
    | nil => exact List.mem_cons_self
    | cons r γ =>
      obtain ⟨hr, hγ⟩ := List.forall_mem_cons.1 hγ
      refine List.mem_cons_of_mem _ (List.mem_flatMap.2 ⟨r, List.mem_range.2 hr, ?_⟩)
      exact List.mem_map_of_mem (ih (Nat.le_of_succ_le_succ hlen) hγ)

theorem length_shortStacks (size k : Nat) : (shortStacks size k).length ≤ Nat.pow (size + 1) k := by
  induction k with
  | zero => exact Nat.le_refl 1
  | succ k ih =>
    have hpos : 0 < Nat.pow (size + 1) k := Nat.pow_pos (Nat.succ_pos size)
    have hpow : Nat.pow (size + 1) (k + 1) = (size + 1) * Nat.pow (size + 1) k := Nat.pow_succ'
    have hmul := Nat.mul_le_mul_left size ih
    rw [shortStacks, List.length_cons, List.length_flatMap]
    simp only [List.length_map, List.map_const', List.length_range, List.sum_replicate_nat]
    rw [hpow, Nat.succ_mul]
    omega

def places (net : Network) (root : StackContext) (base : List Nat) : List (Nat × StackContext) :=
  (List.range net.states.size).flatMap fun n =>
    (shortStacks net.states.size net.starts.size).flatMap fun γ =>
      (List.range (base.length + 1)).map fun j => place root (n, γ ++ base.drop j)

theorem length_places (net : Network) (root : StackContext) (base : List Nat) {k : Nat}
    (hk : base.length ≤ k) : (places net root base).length < bound net k := by
  have hstacks := length_shortStacks net.states.size net.starts.size
  simp only [places, List.length_flatMap, List.length_map, List.length_range, List.map_const',
    List.sum_replicate_nat]
  unfold bound
  have hpos : 0 < Nat.pow (net.states.size + 1) (net.starts.size + 2) := Nat.pow_pos (Nat.succ_pos _)
  calc net.states.size * ((shortStacks net.states.size net.starts.size).length * (base.length + 1))
      ≤ (net.states.size + 1) * (Nat.pow (net.states.size + 1) net.starts.size * (k + 1)) := by gcongr; omega
    _ = Nat.pow (net.states.size + 1) (net.starts.size + 1) * (k + 1) := by
      rw [← Nat.mul_assoc]
      exact congrArg (· * (k + 1)) (Nat.pow_succ' ).symm
    _ ≤ Nat.pow (net.states.size + 1) (net.starts.size + 2) * (k + 1) :=
      Nat.mul_le_mul_right _ (Nat.pow_le_pow_right (Nat.succ_pos _) (Nat.le_succ _))
    _ < Nat.pow (net.states.size + 1) (net.starts.size + 2) * (k + 2) :=
      Nat.mul_lt_mul_of_pos_left (Nat.lt_succ_self _) hpos

theorem Pending.mem_places {c : Nat × List Nat} {called : List Int} {calls : List (Nat × Nat)}
    (h : Pending net base c called calls) (hn : c.1 < net.states.size) : place root c ∈ places net root base := by
  obtain ⟨n, γ⟩ := c
  obtain ⟨j, hγ⟩ := h.stack
  have hlen : calls.length ≤ net.starts.size := by
    have hsub : called ⊆ (List.range net.starts.size).map Nat.cast := by
      rw [h.rules]
      intro x hx
      obtain ⟨k, hk, rfl⟩ := List.mem_map.1 hx
      obtain ⟨r, hr, hrule⟩ := h.starts k hk
      exact List.mem_map.2 ⟨r, List.mem_range.2 (Array.getElem?_eq_some_iff.1 hr).1, hrule.symm⟩
    have hle := (List.subperm_of_subset h.distinct hsub).length_le
    rwa [h.rules, List.length_map, List.length_map, List.length_range] at hle
  have hmem : calls.map Prod.snd ∈ shortStacks net.states.size net.starts.size := by
    refine mem_shortStacks (by rwa [List.length_map]) fun r hr => ?_
    obtain ⟨k, hk, rfl⟩ := List.mem_map.1 hr
    exact h.rets k hk
  have hdrop : base.drop j = base.drop (min j base.length) := by
    rcases Nat.le_total j base.length with hj | hj
    · rw [Nat.min_eq_left hj]
    · rw [Nat.min_eq_right hj, List.drop_of_length_le hj, List.drop_length]
  refine List.mem_flatMap.2 ⟨n, List.mem_range.2 hn, List.mem_flatMap.2 ⟨_, hmem,
    List.mem_map.2 ⟨min j base.length, ?_, ?_⟩⟩⟩
  · exact List.mem_range.2 (Nat.lt_succ_of_le (Nat.min_le_right _ _))
  · rw [← hdrop, ← hγ]

/-- The number of places that the search has not come to yet. -/
def room (net : Network) (root : StackContext) (base : List Nat) (s : Search) : Nat :=
  ((places net root base).toFinset \ s.busy.toFinset).card

theorem room_enter {s : Search} {p : Nat × StackContext} (hp : p ∈ places net root base) (hnew : p ∉ s.busy) :
    room net root base { s with busy := p :: s.busy } < room net root base s := by
  refine Finset.card_lt_card ⟨Finset.sdiff_subset_sdiff subset_rfl ?_, fun h => ?_⟩
  · intro q hq
    simp_all
  · have := h (Finset.mem_sdiff.2 ⟨List.mem_toFinset.2 hp, by simpa using hnew⟩)
    simp at this

theorem Advance.room_le {s s' : Search} (h : Advance net root mark s s') :
    room net root base s' ≤ room net root base s := by
  refine Finset.card_le_card (Finset.sdiff_subset_sdiff subset_rfl fun q hq => ?_)
  exact List.mem_toFinset.2 (h.busy q (List.mem_toFinset.1 hq))

/-! ## One visit -/

/-- What an edge has to offer at a place is done. -/
structure Tried (net : Network) (root : StackContext) (γ : List Nat) (e : Edge) (s : Search) : Prop where
  slip : e.isEpsilon = true → e.label.follow? = none → place root (e.target, γ) ∈ s.busy
  call : ∀ ret, e.label.follow? = some ret → place root (e.target, ret :: γ) ∈ s.busy
  reads : ∀ x, e.label.reads x Symbol.minUser net.maxSymbol = true → s.look.Contains x

theorem Tried.keep {γ : List Nat} {e : Edge} {s s' : Search} (h : Tried net root γ e s)
    (hadv : Advance net root mark s s') : Tried net root γ e s' :=
  ⟨fun hs hc => hadv.busy _ (h.slip hs hc), fun ret hc => hadv.busy _ (h.call ret hc),
    fun x hx => hadv.look x (h.reads x hx)⟩

theorem completes_edges {n : Nat} {γ : List Nat} {a : Search} {β : Type} {b : β}
    {f : Edge → β → LookM (ForInStep β)} (hstop : (net.state n).isRuleStop = false)
    (hs : Sound net mark start a)
    (htry : ∀ e ∈ net.edges n, ∀ b t, Sound net mark start t → Advance net root mark a t →
      ∃ b' t', f e b t = .ok (.yield b') t' ∧ Sound net mark start t' ∧ Advance net root mark t t' ∧
        (net.NoLeftRecursion → Tried net root γ e t')) :
    Completes net root mark start (n, γ) (forIn (net.edges n).toList b f >>= fun _ => pure ⟨⟩) a := by
  obtain ⟨b', s', hloop, hsound, hadv, hall⟩ := Run.forIn_achieves (P := Sound net mark start)
    (R := Advance net root mark) (Q := fun e t => net.NoLeftRecursion → Tried net root γ e t)
    Advance.refl (fun _ _ _ => Advance.trans) (fun e t t' hadv hq hrec => (hq hrec).keep hadv)
    (fun e he => htry e (Array.mem_toList_iff.1 he)) b hs
  refine ⟨s', Run.bind_ok hloop, hsound, hadv, fun hrec => ?_⟩
  have h : ∀ e ∈ net.edges n, Tried net root γ e s' := fun e he => hall e (Array.mem_toList_iff.2 he) hrec
  refine ⟨fun d hd => ?_, fun _ e he x hx => (h e he).reads x hx, fun hstop' => ?_⟩
  · cases hd with
    | slip _ he hsilent hcall => exact (h _ he).slip hsilent hcall
    | call _ he hcall => exact (h _ he).call _ hcall
    | back hstop' => cases hstop.symm.trans hstop'
  · cases hstop.symm.trans hstop'

variable (root) in
theorem Sound.take (hf : net.Formed) (hfits : net.Fits) {n : Nat} {γ : List Nat} {e : Edge} {t : Search}
    (ht : Sound net mark start t) (hreach : net.Glides start (n, γ))
    (hstop : (net.state n).isRuleStop = false) (he : e ∈ net.edges n) (hreads : e.isEpsilon = false) :
    ∃ x, e.label.foreseen net.maxSymbol = .ok x ∧ Sound net mark start { t with look := t.look.union x } ∧
      Advance net root mark t { t with look := t.look.union x } ∧
      Tried net root γ e { t with look := t.look.union x } := by
  obtain ⟨x, hx, hne, hmem⟩ := Label.foreseen_ok (hf.labels n hstop e he) (hfits n hstop e he)
  obtain ⟨hsound, hadv, hin⟩ := ht.foundAll root hne fun y hy =>
    .inl ⟨(n, γ), hreach, hstop, e, he, (hmem y).1 hy⟩
  refine ⟨x, hx, hsound, hadv, fun hsilent => ?_, fun ret hret => ?_, fun y hy => hin y ((hmem y).2 hy)⟩
  · cases hreads.symm.trans hsilent
  · cases hl : e.label <;> simp_all [Edge.isEpsilon, Label.isEpsilon, Label.follow?]

/-- A visit to a place under calls in progress ends, finds only what is right and does there and
further on all that can be done. -/
theorem explore_spec (hf : net.Formed) (hfits : net.Fits) (hroot : Bottom root mark)
    (hbase : ∀ r ∈ base, r < net.states.size) {fuel n : Nat}
    {γ : List Nat} {called : List Int} {calls : List (Nat × Nat)} {s : Search}
    (hpending : Pending net base (n, γ) called calls) (hn : n < net.states.size)
    (hreach : net.Glides start (n, γ)) (hroom : room net root base s < fuel) (hs : Sound net mark start s) :
    ∃ s', explore net none fuel n (.ofList root γ) called s = .ok ⟨⟩ s' ∧ Sound net mark start s' ∧
      Advance net root mark s s' ∧ place root (n, γ) ∈ s'.busy := by
  induction fuel generalizing n γ called calls s with
  | zero => omega
  | succ fuel ih =>
    rw [explore, Run.get_bind]
    by_cases hbusy : s.busy.contains (n, StackContext.ofList root γ) = true
    · exact ⟨s, by rw [if_pos hbusy]; rfl, hs, .refl s, List.contains_iff_mem.1 hbusy⟩
    have hfresh : place root (n, γ) ∉ s.busy := fun h => hbusy (List.contains_iff_mem.2 h)
    have hroom' := Nat.lt_of_lt_of_le (room_enter (hpending.mem_places hn) hfresh) (Nat.le_of_lt_succ hroom)
    have hs' : Sound net mark start { s with busy := place root (n, γ) :: s.busy } := ⟨hs.apart, hs.found⟩
    rw [if_neg hbusy, Run.modify_bind]
    dsimp only
    refine Completes.enter (c := (n, γ)) (s := s) hroot ?_
    by_cases hstop : (net.state n).isRuleStop = true
    · have hidle : ∀ {d}, ¬ net.Move (fun _ => True) (n, []) d := by
        intro d hd
        cases hd with
        | slip hstop' | call hstop' => cases hstop.symm.trans hstop'
      rw [if_pos (.inr hstop)]
      cases γ with
      | nil =>
        have hone := @Label.range_parts mark mark (Int.le_refl mark)
        obtain ⟨hsound, hadv, hmem⟩ := hs'.foundAll root (x := .single mark) hone.1 fun y hy =>
          .inr ⟨by have := (hone.2 y).1 hy; omega, n, hreach, hstop⟩
        refine ⟨_, ?_, hsound, hadv, fun _ => ⟨fun d hd => absurd hd hidle, fun hstop' => ?_, fun _ _ => ?_⟩⟩
        · cases hroot <;> rfl
        · cases hstop.symm.trans hstop'
        · exact hmem mark ((hone.2 mark).2 (by omega))
      | cons r γ =>
        obtain ⟨calls', hback⟩ := hpending.back hf hstop
        have hr := hpending.lt_size hbase r List.mem_cons_self
        obtain ⟨s', hgo, hsound, hadv, hplace⟩ := ih hback hr (hreach.tail (.back hstop)) hroom' hs'
        refine ⟨s', ?_, hsound, hadv, fun _ => ⟨fun d hd => ?_, fun hstop' => ?_, fun _ hnil => by cases hnil⟩⟩
        · have hframe : StackContext.ofList root (r :: γ) = .single (.ofList root γ) r := rfl
          rw [hframe, if_neg (by simp), StackContext.isEmpty, Run.ofExcept_ok_bind, if_neg Bool.false_ne_true,
            if_pos ⟨hstop, by simp⟩]
          simp only [StackContext.frames, List.forIn_cons, List.forIn_nil, stateAt_natCast hr,
            Run.ofExcept_ok_bind, bind_assoc]
          exact Run.bind_ok hgo
        · cases hd with
          | slip hstop' | call hstop' => cases hstop.symm.trans hstop'
          | back => exact hplace
        · cases hstop.symm.trans hstop'
    · have hstop : (net.state n).isRuleStop = false := by simpa using hstop
      rw [if_neg (by simp [hstop]), if_neg (by simp [hstop]), ← Array.forIn_toList]
      refine completes_edges hstop hs' fun e he b t ht hadv => ?_
      have hroom'' := Nat.lt_of_le_of_lt hadv.room_le hroom'
      have htarget := hf.target n hstop e he
      have hslip : e.isEpsilon = true → e.label.follow? = none → ∃ t', explore net none fuel e.target
          (.ofList root γ) called t = .ok ⟨⟩ t' ∧ Sound net mark start t' ∧ Advance net root mark t t' ∧
          (net.NoLeftRecursion → Tried net root γ e t') := by
        intro hsilent hf'
        obtain ⟨t', hgo, hsound, hadv', hplace⟩ := ih (hpending.slip hstop he hsilent hf') htarget
          (hreach.tail (.slip hstop he hsilent hf' trivial)) hroom'' ht
        refine ⟨t', hgo, hsound, hadv', fun _ => ⟨fun _ _ => hplace, fun ret hret => ?_, fun y hy => ?_⟩⟩
        · cases hf'.symm.trans hret
        · cases hl : e.label <;> simp_all [Edge.isEpsilon, Label.isEpsilon, Label.reads]
      cases hl : e.label with
      | call rule precedence ret =>
        have hcall : e.label.follow? = some ret := by rw [hl]; rfl
        have hret := (hf.calls n hstop e he ret hcall).1
        have hsmall := hf.small
        dsimp only
        by_cases hcalled : (net.state e.target).rule ∈ called
        · refine ⟨_, t, by rw [if_neg (by simpa using hcalled)]; rfl, ht, .refl t, fun hrec => ?_⟩
          exact absurd hcalled (hpending.not_mem hf hrec hstop he hcall)
        · obtain ⟨t', hgo, hsound, hadv', hplace⟩ := ih (hpending.call hf hstop he hcall hcalled) htarget
            (hreach.tail (.call hstop he hcall)) hroom'' ht
          refine ⟨⟨⟩, t', ?_, hsound, hadv', fun _ => ⟨fun _ hnone => ?_, fun ret' hret' => ?_, fun y hy => ?_⟩⟩
          · rw [if_pos hcalled, hroot.push_ofList (by omega), Run.bind_ok hgo]
            rfl
          · cases hnone.symm.trans hcall
          · cases hcall.symm.trans hret'
            exact hplace
          · rw [hl] at hy
            cases hy
      | epsilon k | predicate r k b | action r k b | precedence k =>
        obtain ⟨t', hgo, hrest⟩ := hslip (by rw [Edge.isEpsilon, hl]; rfl) (by rw [hl]; rfl)
        exact ⟨_, t', by dsimp only; rw [Run.bind_ok hgo]; rfl, hrest⟩
      | notSet x =>
        obtain ⟨y, hy, hsound, hadv', htried⟩ := ht.take root hf hfits hreach hstop he
          (by rw [Edge.isEpsilon, hl]; rfl)
        rw [hl, Label.foreseen] at hy
        exact ⟨⟨⟩, _, by dsimp only; rw [hy]; rfl, hsound, hadv', fun _ => htried⟩
      | wildcard | atom x | range lo hi | set x =>
        obtain ⟨y, hy, hsound, hadv', htried⟩ := ht.take root hf hfits hreach hstop he
          (by rw [Edge.isEpsilon, hl]; rfl)
        rw [hl] at hy
        cases hy
        exact ⟨⟨⟩, _, rfl, hsound, hadv', fun _ => htried⟩

end Lookahead

end Throbac
