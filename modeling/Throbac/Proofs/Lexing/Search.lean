import Throbac.Proofs.Run
import Throbac.Proofs.Lexing.Moves

/-!
# Searching a plain network

In a plain network the search without reading never fails: it collects exactly the configurations
that `reach` lists. So the sets of configurations a lexer works with are values of two plain
functions, `startSet` and `advanceSet`.
-/
namespace Throbac

namespace LexConfigs

/-- The set with several configurations more, those it has apart. -/
def addAll (s : LexConfigs) (cs : List LexConfig) : LexConfigs := cs.foldl add s

theorem addAll_append (s : LexConfigs) (cs ds : List LexConfig) :
    s.addAll (cs ++ ds) = (s.addAll cs).addAll ds := List.foldl_append

theorem mem_add {s : LexConfigs} {c d : LexConfig} :
    d ∈ (s.add c).configs ↔ d ∈ s.configs ∨ d = c := by
  unfold add
  split
  · rename_i h
    have hc : c ∈ s.configs := by simpa using h
    constructor
    · exact Or.inl
    · rintro (h | rfl) <;> assumption
  · simp

theorem mem_addAll {s : LexConfigs} {cs : List LexConfig} {d : LexConfig} :
    d ∈ (s.addAll cs).configs ↔ d ∈ s.configs ∨ d ∈ cs := by
  induction cs generalizing s with
  | nil => simp [addAll]
  | cons c cs ih =>
    have h : (s.addAll (c :: cs)) = (s.add c).addAll cs := rfl
    rw [h, ih, mem_add, List.mem_cons, or_assoc]

theorem addAll_sublist (s : LexConfigs) (cs : List LexConfig) :
    ∃ ds, ds.Sublist cs ∧ (s.addAll cs).configs.toList = s.configs.toList ++ ds := by
  induction cs generalizing s with
  | nil => exact ⟨[], .slnil, by simp [addAll]⟩
  | cons c cs ih =>
    obtain ⟨ds, hd, h⟩ := ih (s.add c)
    have hc : (s.addAll (c :: cs)).configs.toList = (s.add c).configs.toList ++ ds := h
    unfold add at hc
    split at hc
    · exact ⟨ds, hd.cons c, hc⟩
    · exact ⟨c :: ds, hd.cons_cons c, by simp [hc]⟩

theorem addAll_hasGuard (s : LexConfigs) (cs : List LexConfig) :
    (s.addAll cs).hasGuard = s.hasGuard := by
  induction cs generalizing s with
  | nil => rfl
  | cons c cs ih =>
    have h : (s.addAll (c :: cs)) = (s.add c).addAll cs := rfl
    rw [h, ih]
    unfold add
    split <;> rfl

end LexConfigs

namespace Lexing

/-- The configurations a mode begins with, one for each rule. -/
def origins (net : Network) (n : Nat) : List LexConfig :=
  (net.edges n).toList.zipIdx.map fun (e, i) => { state := e.target, alt := i + 1, context := .empty }

def startSet (net : Network) (n : Nat) : LexConfigs :=
  ({} : LexConfigs).addAll ((origins net n).flatMap fun c => reach net (bound net c) c)

/-- Where a configuration comes by reading a symbol, before it slips. -/
def reads (net : Network) (t : Int) (c : LexConfig) : List LexConfig :=
  ((net.edges c.state).toList.filter (·.label.reads t 0 Symbol.maxChar)).map
    fun e => { c with state := e.target }

def advanceSet (net : Network) (s : LexConfigs) (t : Int) : LexConfigs :=
  ({} : LexConfigs).addAll
    (s.configs.toList.flatMap fun c => (reads net t c).flatMap fun d => reach net (bound net d) d)

variable {net : Network} {rank : Nat → Nat} {env : Surroundings}

section Searching

/-- What a lexer that keeps no trace lets a search ask. -/
structure Silent (net : Network) (env : Surroundings) : Prop where
  network : env.network = net
  traced : env.traced = false

theorem Silent.note (h : Silent net env) (line : Unit → String) (s : Collected) :
    note env line s = .ok ⟨⟩ s := by
  simp [Lexing.note, h.traced]

theorem bottom_ne (hp : Plain net rank) {ret : Nat} (hr : ret < net.states.size) :
    (ret : Int) ≠ StackContext.bottom := by
  have := hp.small
  omega

theorem hasEmptyPath_eq (hp : Plain net rank) {s : StackContext} (h : Stacked net s) :
    s.hasEmptyPath = .ok (decide (s = .empty)) := by
  cases h with
  | empty => rfl
  | single _ hr => simp [StackContext.hasEmptyPath, StackContext.width, StackContext.retAt, bind,
      Except.bind, pure, Except.pure, bottom_ne hp hr]

theorem follow_eq (hp : Plain net rank) (he : Silent net env) {c : LexConfig} (hc : Sane net c)
    {e : Edge} (hm : e ∈ net.edges c.state) (s : Collected) :
    follow env c e s = .ok (slip net c e) s := by
  have hl := hp.labels c.state e hm
  have hn := hc.stacked.ne_null
  have ha := fun r i b h => (hp.appendAction_eq (r := r) (i := i) (b := b) hm h c.actions).1
  obtain ⟨target, label⟩ := e
  cases label with
  | call | epsilon => simp [follow, slip, he.network, hp.moveTo_eq]
  | predicate | precedence => simp [plainLabel] at hl
  | action r i b =>
    by_cases hs : c.context = .empty
    · simp [follow, slip, he.network, hp.moveTo_eq, hs, hasEmptyPath_eq hp .empty, Run.bind_apply,
        Run.map_apply, ha r i b rfl]
    · simp [follow, slip, he.network, hp.moveTo_eq, hn, hs, hasEmptyPath_eq hp hc.stacked,
        Run.bind_apply]
  | notSet | wildcard => simp [follow, slip]
  | atom | range | set =>
    -- an edge that reads a character does not read the end of the text
    have hr := by simpa [plainLabel] using hl
    simp [follow, slip, hr]

theorem collect_eq (c : LexConfig) (s : Collected) :
    collect c s = .ok ⟨⟩ { s with configs := s.configs.add c } := rfl

/-- What the search does to what was collected before. -/
def gather (s : Collected) (cs : List LexConfig) : Collected := { s with configs := s.configs.addAll cs }

theorem gather_flatMap {α : Type} (f : α → List LexConfig) (s : Collected) (xs : List α) :
    gather s (xs.flatMap f) = xs.foldl (fun s x => gather s (f x)) s := by
  induction xs generalizing s with
  | nil => rfl
  | cons x xs ih =>
    rw [List.flatMap_cons, List.foldl_cons, ← ih]
    simp [gather, LexConfigs.addAll_append]

theorem leave_eq (hp : Plain net rank) {c : LexConfig} {parent : StackContext} {ret : Nat}
    (hs : c.context = .single parent ret) (hparent : Stacked net parent)
    (hr : ret < net.states.size) :
    leave net c = .ok [{ c with state := ret, context := parent }] := by
  simp [leave, hs, StackContext.frames, bottom_ne hp hr, Network.stateAt, Sequence.resolve?_natCast hr,
    hp.moveTo_eq, hparent.ne_null, pure, bind, Except.pure, Except.bind]

theorem edges_eq (hp : Plain net rank) (he : Silent net env) {fuel : Nat} {c : LexConfig}
    (hc : Sane net c) (hstop : (net.state c.state).isRuleStop = false)
    (ih : ∀ d ∈ slips net c, ∀ b s, ∃ b',
      closure env fuel d b s = .ok b' (gather s (reach net fuel d))) (b : Bool) (s : Collected) :
    ∃ b', (forIn (net.state c.state).edges b fun e b => do
      match ← follow env c e with
      | some next =>
        let b ← closure env fuel next b
        pure (ForInStep.yield b)
      | none => pure (ForInStep.yield b) : CollectM Bool) s =
        .ok b' (gather s ((slips net c).flatMap (reach net fuel))) := by
  have hslips : slips net c = (net.edges c.state).toList.filterMap (slip net c) := by
    simp [slips, hstop]
  rw [gather_flatMap, hslips, List.foldl_filterMap, ← Array.forIn_toList]
  refine Run.forIn_yield (fun e hm b s => ?_) b s
  have hm' : e ∈ net.edges c.state := Array.mem_toList_iff.1 hm
  rw [Run.bind_ok (follow_eq hp he hc hm' s)]
  cases hs : slip net c e with
  | none => exact ⟨b, rfl⟩
  | some d =>
    obtain ⟨b', hb⟩ := ih d (hslips ▸ List.mem_filterMap.2 ⟨e, hm, hs⟩) b s
    exact ⟨b', Run.bind_ok hb⟩

theorem closure_eq (hp : Plain net rank) (he : Silent net env) (fuel : Nat) (c : LexConfig)
    (hc : Sane net c) (hd : depth rank c < fuel) (ended : Bool) (s : Collected) :
    ∃ b, closure env fuel c ended s = .ok b (gather s (reach net fuel c)) := by
  induction fuel generalizing c ended s with
  | zero => omega
  | succ fuel ih =>
    have hslip : ∀ d ∈ slips net c, ∀ b s, ∃ b',
        closure env fuel d b s = .ok b' (gather s (reach net fuel d)) := fun d hm b s =>
      ih d (hp.sane_slips hc hm) (by have := hp.depth_slips hc hm; omega) b s
    rw [closure, Run.bind_ok (he.note _ _)]
    by_cases hstop : (net.state c.state).isRuleStop = true
    · simp only [he.network, hstop, if_true, he.traced, Bool.false_eq_true, if_false,
        hc.stacked.ne_null, hasEmptyPath_eq hp hc.stacked]
      rcases hc.stacked.empty_or_single with hctx | ⟨parent, ret, hctx, hparent, hr⟩
      · refine ⟨true, ?_⟩
        simp only [reach, waits, slips, hstop, hctx]
        rfl
      · have hd : slips net c = [{ c with state := ret, context := parent }] := by
          simp [slips, hstop, hctx]
        obtain ⟨b, hb⟩ := hslip _ (hd ▸ List.mem_singleton_self _) ended s
        refine ⟨b, ?_⟩
        simp only [reach, waits, hd, hstop, hctx, leave_eq hp hctx hparent hr]
        simp [StackContext.isEmpty, Run.bind_apply, hb]
    · simp only [he.network, hstop, if_false, Bool.false_eq_true, hc.greedy, Bool.not_false,
        Bool.or_true, Bool.and_true, bind_pure]
      have hstop : (net.state c.state).isRuleStop = false := by simpa using hstop
      have hw : waits net c = !(net.state c.state).epsilonOnly := by simp [waits, hstop]
      rw [← hw]
      by_cases hwait : waits net c = true
      · obtain ⟨b, hb⟩ := edges_eq hp he hc hstop hslip ended (gather s [c])
        refine ⟨b, ?_⟩
        have hg : gather s (reach net (fuel + 1) c) =
            gather (gather s [c]) ((slips net c).flatMap (reach net fuel)) := by
          simp [reach, hwait, gather, LexConfigs.addAll]
        rw [if_pos hwait, Run.bind_ok (collect_eq c s), hg]
        exact hb
      · obtain ⟨b, hb⟩ := edges_eq hp he hc hstop hslip ended s
        refine ⟨b, ?_⟩
        rw [if_neg hwait, reach, if_neg hwait]
        exact hb

theorem load_le (hp : Plain net rank) {s : StackContext} (h : Stacked net s) :
    load rank s ≤ s.height * (net.states.size + 1) := by
  induction h with
  | empty => simp [load]
  | @single parent ret _ _ ih =>
    have := hp.low ret
    simp only [load, Int.toNat_natCast, StackContext.height, Nat.add_mul, Nat.one_mul]
    omega

theorem depth_lt_bound (hp : Plain net rank) {c : LexConfig} (hc : Sane net c) :
    depth rank c < bound net c := by
  have hl := load_le hp hc.stacked
  have hr := hp.low c.state
  have hpow : net.states.size + 1 ≤ (net.states.size + 1) ^ (net.starts.size + 1) :=
    Nat.le_self_pow (by omega) _
  calc depth rank c ≤ net.states.size + c.context.height * (net.states.size + 1) := by
        simp only [depth]; omega
    _ < (net.states.size + 1) * (c.context.height + 2) := by
        rw [Nat.mul_add (_ + 1), Nat.mul_comm]; omega
    _ ≤ bound net c := Nat.mul_le_mul_right _ hpow

theorem pinActions_eq {c : LexConfig} (hc : Sane net c) (s : Collected) :
    pinActions env c.actions s = .ok c.actions s := by
  have hpin : ∀ (as : ActionList) (offset : Int) (n : Nat),
      (∀ a ∈ as, ActionList.unpinned a = false) → ActionList.pin offset n as = (as, n) := by
    intro as offset n h
    induction as with
    | nil => rfl
    | cons a as ih =>
      simp [ActionList.pin, h a List.mem_cons_self,
        ih fun b hb => h b (List.mem_cons_of_mem a hb)]
  unfold pinActions
  cases ha : c.actions with
  | none => rfl
  | some as => simp [hpin as _ _ (hc.unpinned as ha), Run.map_apply]

theorem sane_origins {n : Nat} {c : LexConfig} (h : c ∈ origins net n) : Sane net c := by
  obtain ⟨⟨e, i⟩, _, rfl⟩ := List.mem_map.1 h
  exact ⟨.empty, rfl, fun as ha => by cases ha⟩

theorem sane_reads {t : Int} {c d : LexConfig} (hc : Sane net c) (h : d ∈ reads net t c) :
    Sane net d := by
  obtain ⟨e, _, rfl⟩ := List.mem_map.1 h
  exact ⟨hc.stacked, hc.greedy, hc.unpinned⟩

theorem start_eq (hp : Plain net rank) (he : Silent net env) (n : Nat) (fresh : Nat) :
    start env n { fresh } = .ok ⟨⟩ { fresh, configs := startSet net n } := by
  let g (x : Edge × Nat) : LexConfig := { state := x.1.target, alt := x.2 + 1, context := .empty }
  let f (x : Edge × Nat) : List LexConfig := reach net (bound net (g x)) (g x)
  have hs : ({ fresh, configs := startSet net n } : Collected) =
      (net.edges n).toList.zipIdx.foldl (fun s x => gather s (f x)) { fresh } := by
    rw [← gather_flatMap, startSet, origins, List.flatMap_map]
    rfl
  rw [start, he.network, hs]
  refine Run.bind_discard (Run.forIn_yield (fun x hx _ s => ?_) _ _)
  have hc : Sane net (g x) := sane_origins (List.mem_map_of_mem hx)
  obtain ⟨b, hb⟩ := closure_eq hp he _ _ hc (depth_lt_bound hp hc) false s
  exact ⟨⟨⟩, Run.bind_ok hb⟩

theorem advanceOne_eq (hp : Plain net rank) (he : Silent net env) {c : LexConfig}
    (hc : Sane net c) (t : Int) (ended : Bool) (b : Int) (s : Collected) :
    ∃ b', (forIn (net.edges c.state) b fun e b =>
      if e.label.reads t 0 Symbol.maxChar = true then do
        let actions ← pinActions env c.actions
        let next : LexConfig := { c.moveTo net e.target with actions }
        if ← closure env (bound net next) next ended then pure (ForInStep.yield c.alt)
        else pure (ForInStep.yield b)
      else pure (ForInStep.yield b) : CollectM Int) s =
        .ok b' (gather s ((reads net t c).flatMap fun d => reach net (bound net d) d)) := by
  rw [reads, List.flatMap_map, gather_flatMap, List.foldl_filter, ← Array.forIn_toList]
  refine Run.forIn_yield (fun e hm b s => ?_) b s
  split
  · rename_i hr
    have hd : Sane net { c with state := e.target } := sane_reads hc
      (List.mem_map_of_mem (List.mem_filter.2 ⟨hm, hr⟩))
    obtain ⟨b', hb⟩ := closure_eq hp he _ _ hd (depth_lt_bound hp hd) ended s
    rw [Run.bind_ok (pinActions_eq hc s)]
    simp only [hp.moveTo_eq]
    rw [Run.bind_ok hb]
    cases b' with
    | true => exact ⟨_, rfl⟩
    | false => exact ⟨_, rfl⟩
  · exact ⟨_, rfl⟩

theorem advance_eq (hp : Plain net rank) (he : Silent net env) (from_ : LexConfigs)
    (hs : ∀ c ∈ from_.configs, Sane net c) (t : Int) (fresh : Nat) :
    advance env from_ t { fresh } = .ok ⟨⟩ { fresh, configs := advanceSet net from_ t } := by
  let f (c : LexConfig) : List LexConfig :=
    (reads net t c).flatMap fun d => reach net (bound net d) d
  have ha : ({ fresh, configs := advanceSet net from_ t } : Collected) =
      from_.configs.toList.foldl (fun s c => gather s (f c)) { fresh } := by
    rw [← gather_flatMap]
    rfl
  rw [advance, he.network, ha]
  simp only [he.traced, Bool.false_eq_true, if_false, ← Array.forIn_toList]
  refine Run.bind_discard (Run.forIn_yield (fun c hc b s => ?_) 0 _)
  have hc := hs c (Array.mem_toList_iff.1 hc)
  obtain ⟨b', hb⟩ := advanceOne_eq hp he hc t (c.alt == b) b s
  rw [← Array.forIn_toList] at hb
  refine ⟨b', ?_⟩
  simp only [hc.greedy, Bool.and_false, Bool.false_eq_true, if_false]
  exact Run.bind_ok hb

end Searching

end Lexing

end Throbac
