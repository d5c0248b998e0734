import Throbac.Lexing.Closure

/-!
# Moves through a lexer network

What a configuration can do in one step, as plain functions: slip along an edge that reads nothing,
come back from a call, or read a character. A network is plain if its edges carry no predicates, no
choice prefers to leave, no action belongs to the grammar's author, and a rank falls along every slip,
so that slipping ends. All statements about searching a network below are made for plain networks.
-/
namespace Throbac

namespace Lexing

/-- The actions with the network's action at the given position behind them, unchanged where there
is no such action. -/
def withAction (net : Network) (actions : Option ActionList) (index : Int) : Option ActionList :=
  match appendAction net actions index with
  | .ok as => as
  | .error _ => actions

/-- Where an edge leads without reading a character. Only the actions of an outermost rule count. -/
def slip (net : Network) (c : LexConfig) (e : Edge) : Option LexConfig :=
  match e.label with
  | .call _ _ ret => some { c with state := e.target, context := c.context.push ret }
  | .epsilon _ => some { c with state := e.target }
  | .action _ index _ =>
    some { c with
      state := e.target
      actions := if c.context = .empty then withAction net c.actions index else c.actions }
  | _ => none

/-- Where a configuration comes without reading, in one step. -/
def slips (net : Network) (c : LexConfig) : List LexConfig :=
  if (net.state c.state).isRuleStop then
    match c.context with
    | .single parent ret => [{ c with state := ret.toNat, context := parent }]
    | _ => []
  else (net.edges c.state).toList.filterMap (slip net c)

/-- Whether a search keeps the configuration: it can read, or a rule has matched. -/
def waits (net : Network) (c : LexConfig) : Bool :=
  if (net.state c.state).isRuleStop then decide (c.context = .empty)
  else !(net.state c.state).epsilonOnly

/-- What a search keeps that starts from a configuration, in the order in which it is met. -/
def reach (net : Network) : Nat → LexConfig → List LexConfig
  | 0, _ => []
  | fuel + 1, c => (if waits net c then [c] else []) ++ (slips net c).flatMap (reach net fuel)

def plainLabel (net : Network) : Label → Bool
  | .epsilon _ => true
  | .call _ _ ret => decide (ret < net.states.size)
  | .action _ index _ => decide (0 ≤ index ∧ index < (net.actions.getD #[]).size)
  | .predicate .. | .precedence _ => false
  | l => !l.reads Symbol.eof 0 Symbol.maxChar

/-- Whether a rank falls along an edge out of a state of the given rank. Behind a call, what is left
to do after it counts too. -/
def falls (rank : Nat → Nat) (here : Nat) (e : Edge) : Bool :=
  match e.label with
  | .epsilon _ | .action .. => decide (rank e.target < here)
  | .call _ _ ret => decide (rank e.target + rank ret + 1 < here)
  | _ => true

structure Plain (net : Network) (rank : Nat → Nat) : Prop where
  small : (net.states.size : Int) ≤ StackContext.bottom
  greedy : ∀ n, (net.state n).prefersExit = false
  labels : ∀ n, ∀ e ∈ net.edges n, plainLabel net e.label = true
  reading : ∀ n, ∀ e ∈ net.edges n, e.isEpsilon = false →
    (net.state n).isRuleStop = false ∧ (net.state n).epsilonOnly = false
  falling : ∀ n, (net.state n).isRuleStop = false → ∀ e ∈ net.edges n, falls rank (rank n) e = true
  low : ∀ n, rank n ≤ net.states.size
  actions : ∃ as, net.actions = some as ∧ ∀ a ∈ as, ∀ r i, a ≠ .custom r i

/-- Stacks of return states of a network. -/
inductive Stacked (net : Network) : StackContext → Prop
  | empty : Stacked net .empty
  | single {parent : StackContext} {ret : Nat} :
    Stacked net parent → ret < net.states.size → Stacked net (.single parent ret)

/-- The configurations that a search of a plain network meets. -/
structure Sane (net : Network) (c : LexConfig) : Prop where
  stacked : Stacked net c.context
  greedy : c.nonGreedy = false
  unpinned : ∀ as, c.actions = some as → ∀ a ∈ as, ActionList.unpinned a = false

def load (rank : Nat → Nat) : StackContext → Nat
  | .single parent ret => rank ret.toNat + 1 + load rank parent
  | _ => 0

/-- A bound on how far a search without reading can still go. -/
def depth (rank : Nat → Nat) (c : LexConfig) : Nat := rank c.state + load rank c.context

variable {net : Network} {rank : Nat → Nat}

namespace Stacked

theorem empty_or_single {s : StackContext} (h : Stacked net s) :
    s = .empty ∨ ∃ parent, ∃ ret : Nat, s = .single parent ret ∧ Stacked net parent ∧
      ret < net.states.size := by
  cases h with
  | empty => exact .inl rfl
  | single hp hr => exact .inr ⟨_, _, rfl, hp, hr⟩

theorem ne_null {s : StackContext} (h : Stacked net s) : s ≠ .null := by
  cases h <;> simp

theorem push {s : StackContext} {ret : Nat} (h : Stacked net s) (hr : ret < net.states.size) :
    Stacked net (s.push ret) := by
  cases h with
  | empty => exact .single .empty hr
  | single hp hq => exact .single (.single hp hq) hr

theorem load_push {s : StackContext} (h : Stacked net s) (ret : Nat) :
    load rank (s.push ret) = rank ret + 1 + load rank s := by
  cases h <;> simp [StackContext.push, load]

end Stacked

namespace Plain

theorem call_lt (hp : Plain net rank) {n : Nat} {e : Edge} (he : e ∈ net.edges n) {r p : Int}
    {ret : Nat} (hl : e.label = .call r p ret) : ret < net.states.size := by
  have h := hp.labels n e he
  rw [hl] at h
  exact of_decide_eq_true h

theorem appendAction_eq (hp : Plain net rank) {n : Nat} {e : Edge} (he : e ∈ net.edges n) {r i : Int}
    {b : Bool} (hl : e.label = .action r i b) (as : Option ActionList) :
    appendAction net as i = .ok (withAction net as i) ∧
      ∀ bs, withAction net as i = some bs → ∃ a k, bs = as.getD [] ++ [⟨a, k⟩] ∧ ∀ r i, a ≠ .custom r i := by
  obtain ⟨acts, ha, hc⟩ := hp.actions
  have h := hp.labels n e he
  rw [hl] at h
  obtain ⟨h0, h1⟩ : 0 ≤ i ∧ i < acts.size := by
    simpa only [ha, Option.getD_some] using of_decide_eq_true h
  obtain ⟨k, rfl⟩ := Int.eq_ofNat_of_zero_le h0
  have hk : k < acts.size := by omega
  have hr : appendAction net as k = .ok (some (as.getD [] ++ [⟨acts.getD k .skip, k⟩])) := by
    simp only [appendAction, ha, Sequence.resolve?_natCast hk]
  refine ⟨by rw [withAction, hr], fun bs hbs => ?_⟩
  rw [withAction, hr] at hbs
  refine ⟨acts.getD k .skip, k, (Option.some.inj hbs).symm, hc _ ?_⟩
  simp [Array.getD, hk]

theorem moveTo_eq (hp : Plain net rank) (c : LexConfig) (n : Nat) :
    c.moveTo net n = { c with state := n } := by
  simp [LexConfig.moveTo, hp.greedy n]

theorem sane_slip (hp : Plain net rank) {c d : LexConfig} {e : Edge} (hc : Sane net c)
    (he : e ∈ net.edges c.state) (hd : slip net c e = some d) : Sane net d := by
  unfold slip at hd
  split at hd
  · rename_i r p ret hl
    cases hd
    exact ⟨hc.stacked.push (hp.call_lt he hl), hc.greedy, hc.unpinned⟩
  · cases hd
    exact ⟨hc.stacked, hc.greedy, hc.unpinned⟩
  · rename_i r i b hl
    cases hd
    refine ⟨hc.stacked, hc.greedy, fun as ha a hm => ?_⟩
    dsimp only at ha
    split at ha
    · obtain ⟨x, k, rfl, hx⟩ := (hp.appendAction_eq he hl c.actions).2 as ha
      rcases List.mem_append.1 hm with hm | hm
      · cases hca : c.actions with
        | none => simp [hca] at hm
        | some bs => exact hc.unpinned bs hca a (by simpa [hca] using hm)
      · rw [List.mem_singleton.1 hm]
        unfold ActionList.unpinned
        split
        · exact absurd ‹_› (hx _ _)
        · rfl
    · exact hc.unpinned as ha a hm
  · cases hd

theorem sane_slips (hp : Plain net rank) {c d : LexConfig} (hc : Sane net c)
    (hd : d ∈ slips net c) : Sane net d := by
  unfold slips at hd
  split at hd
  · split at hd
    · rename_i parent ret hs
      rw [List.mem_singleton.1 hd]
      refine ⟨?_, hc.greedy, hc.unpinned⟩
      have h := hc.stacked
      rw [hs] at h
      cases h
      assumption
    · simp at hd
  · obtain ⟨e, he, hs⟩ := List.mem_filterMap.1 hd
    exact hp.sane_slip hc (Array.mem_toList_iff.1 he) hs

theorem depth_slips (hp : Plain net rank) {c d : LexConfig} (hc : Sane net c)
    (hd : d ∈ slips net c) : depth rank d < depth rank c := by
  unfold slips at hd
  split at hd
  · split at hd
    · rename_i parent ret hs
      rw [List.mem_singleton.1 hd]
      simp only [depth, hs, load]
      omega
    · simp at hd
  · rename_i hstop
    obtain ⟨e, he, hs⟩ := List.mem_filterMap.1 hd
    have hf := hp.falling c.state (by simpa using hstop) e (Array.mem_toList_iff.1 he)
    unfold slip at hs
    split at hs <;> try cases hs
    all_goals
      rename_i hl
      rw [falls, hl] at hf
      have hf := of_decide_eq_true hf
    · simp only [depth, hc.stacked.load_push]
      omega
    · simp only [depth]
      omega
    · simp only [depth]
      omega

end Plain

end Lexing

end Throbac
