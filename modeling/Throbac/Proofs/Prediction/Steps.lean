import Throbac.Prediction.Closure
import Throbac.Proofs.Grounded
import Throbac.Proofs.Lookahead
import Throbac.Proofs.Prediction.Sets

/-!
# Steps without reading

What a search does from one configuration to the next: it slips along an edge, calls a rule, returns
from one, or falls out of the rule it started in. Each of these is a step of the relation below, and
none of them fails in a network that is laid out as parser networks are.
-/
namespace Throbac

open StackContext (Proper)

/-- A grounded network whose states either wait for a symbol or only lead on silently, and whose
rules are left by silent edges alone. The rank falls along edges that read the end of the input
too. -/
structure Charted (net : Network) (rank : Nat → Nat) (ends : Nat → Bool) : Prop
    extends Grounded net rank ends where
  targets : ∀ n, ∀ e ∈ net.edges n, e.target < net.states.size
  eof : ∀ n, (net.state n).isRuleStop = false → ∀ e ∈ net.edges n,
    e.label.reads Symbol.eof 0 1 = true → rank e.target < rank n ∧ (ends e.target = true → ends n = true)
  waits : ∀ n, (net.state n).epsilonOnly = false →
    (net.edges n).size ≤ 1 ∧ ∀ e ∈ net.edges n, e.isEpsilon = false
  unconditional : ∀ n, ∀ e ∈ net.edges n, ∀ r p needsContext, e.label ≠ .predicate r p needsContext
  falls : ∀ n, (net.state n).isRuleStop = true → ∀ e ∈ net.edges n,
    ∃ outermost, e.label = .epsilon outermost
  loop : ∀ n, (net.state n).kind = .starLoopEntry → (net.state n).precedenceDecision = true →
    ∃ e blockEnd, (net.edges n)[0]? = some e ∧ (net.state e.target).endState = some blockEnd

namespace Prediction

/-- A configuration that a search takes up: whether it still collects predicates, and how many calls
deep it is. -/
structure Stage where
  config : Config
  collecting : Bool
  depth : Int

/-- The guard behind a silent edge that calls no rule, if the edge can be passed. -/
def guardBehind (env : Surroundings) (c : Config) (e : Edge) (collecting inRule : Bool) : Option Guard :=
  match e.label with
  | .precedence p => behind (.precedence p) (collecting && inRule)
  | .predicate r p needsContext =>
    behind (.predicate r p needsContext) (collecting && (!needsContext || inRule))
  | _ => some c.guard
where
  behind (guard : Guard) (asked : Bool) : Option Guard :=
    if !asked then some c.guard
    else if env.full then
      match guard.eval env.oracle with
      | .ok (some true) => some c.guard
      | _ => none
    else some ((Guard.conj (some c.guard) (some guard)).getD .always)

/-- Whether a configuration is spared by the precedence filter behind an edge out of a rule. -/
def sparedBehind (env : Surroundings) (spared : Bool) (outermost : Int) : Bool :=
  match env.recursiveRule with
  | some r => spared || decide (outermost = r)
  | none => spared

/-- A step of a search along an edge: it slips on, calls a rule, reads the end of the input, or falls
out of the rule it started in. -/
inductive Along (env : Surroundings) (e : Edge) : Stage → Stage → Prop
  | slip {c : Config} {collecting : Bool} {depth : Int} {g : Guard}
    (hstop : (env.network.state c.state).isRuleStop = false) (hsilent : e.isEpsilon = true)
    (hcall : e.label.follow? = none)
    (hguard : guardBehind env c e (collecting && !isAction e.label) (depth = 0) = some g) :
    Along env e ⟨c, collecting, depth⟩
      ⟨{ c with state := e.target, guard := g }, collecting && !isAction e.label, depth⟩
  | call {c : Config} {collecting : Bool} {depth : Int} {ret : Nat}
    (hstop : (env.network.state c.state).isRuleStop = false) (hcall : e.label.follow? = some ret) :
    Along env e ⟨c, collecting, depth⟩
      ⟨{ c with state := e.target, context := c.context.push ret }, collecting,
        if depth ≥ 0 then depth + 1 else depth⟩
  | eof {c : Config} {collecting : Bool} {depth : Int}
    (hstop : (env.network.state c.state).isRuleStop = false) (hthrough : env.throughEof = true)
    (hreads : e.label.reads Symbol.eof 0 1 = true) :
    Along env e ⟨c, collecting, depth⟩ ⟨{ c with state := e.target }, collecting, depth⟩
  | fall {c : Config} {collecting : Bool} {depth outermost : Int}
    (hstop : (env.network.state c.state).isRuleStop = true) (hfull : env.full = false)
    (hempty : c.context = .empty) (hlabel : e.label = .epsilon outermost) :
    Along env e ⟨c, collecting, depth⟩
      ⟨{ c with
          state := e.target
          outer := c.outer + 1
          spared := sparedBehind env c.spared outermost }, collecting, depth - 1⟩

/-- One step of a search: along an edge, back to a caller, or down to the empty stack. -/
inductive Step (env : Surroundings) : Stage → Stage → Prop
  | along {x y : Stage} {e : Edge} (he : e ∈ env.network.edges x.config.state) (h : Along env e x y) :
    Step env x y
  | back {c : Config} {collecting : Bool} {depth : Int} {p : StackContext} {r : Nat}
    (hstop : (env.network.state c.state).isRuleStop = true)
    (hframe : (p, (r : Int)) ∈ c.context.frames) (hr : (r : Int) ≠ StackContext.bottom) :
    Step env ⟨c, collecting, depth⟩
      ⟨{ c with state := r, context := p, spared := false }, collecting, depth - 1⟩
  | ground {c : Config} {collecting : Bool} {depth : Int} {p : StackContext}
    (hstop : (env.network.state c.state).isRuleStop = true) (hfull : env.full = true)
    (hframe : (p, StackContext.bottom) ∈ c.context.frames) :
    Step env ⟨c, collecting, depth⟩ ⟨{ c with context := .empty }, collecting, depth⟩

theorem Step.alt {env : Surroundings} {x y : Stage} (h : Step env x y) : y.config.alt = x.config.alt := by
  cases h with
  | along _ h => cases h <;> rfl
  | back => rfl
  | ground => rfl

variable {env : Surroundings} {c : Config} {e : Edge} {s : Search} {collecting inRule : Bool}

theorem isEpsilon_of_follow {ret : Nat} (h : e.label.follow? = some ret) : e.isEpsilon = true := by
  cases hl : e.label <;> simp_all [Label.follow?, Edge.isEpsilon, Label.isEpsilon]

theorem tell_off (ht : env.traced = false) (line : Unit → String) : tell env line s = .ok ⟨⟩ s := by
  rw [tell, if_neg (by simp [ht])]
  rfl

theorem noteFall_off (ht : env.traced = false) : noteFall env c s = .ok ⟨⟩ s := by
  rw [noteFall, if_neg (by simp [ht])]
  rfl

theorem followGuard_eq (hguard : ∀ g : Guard, ∃ b, g.eval env.oracle = .ok b) (next : Config)
    (hnext : next.guard = c.guard) (guard : Guard) (asked : Bool) :
    followGuard env c next guard asked s =
      .ok ((guardBehind.behind env c guard asked).map fun g => { next with guard := g }) s := by
  have hsame : { next with guard := c.guard } = next := by rw [← hnext]
  unfold followGuard guardBehind.behind
  cases asked with
  | false =>
    rw [if_pos (by decide), if_pos (by decide), Option.map_some, hsame]
    rfl
  | true =>
    simp only [Bool.not_true, Bool.false_eq_true, if_false]
    cases env.full with
    | false => rfl
    | true =>
      obtain ⟨b, hb⟩ := hguard guard
      simp only [if_true, hb, Run.ofExcept_ok_bind]
      match b with
      | none => rfl
      | some false => rfl
      | some true => simp [hsame]

theorem traceGuard_off (ht : env.traced = false) (shown : String) (m : SearchM (Option Config))
    {r : Option Config} {s' : Search} (hm : m s = .ok r s') :
    traceGuard env collecting shown m s = .ok r s' := by
  rw [traceGuard, if_neg (by simp [ht])]
  beta_reduce
  rw [Run.bind_ok hm, Run.bind_ok (tell_off ht _)]
  rfl

theorem follow_slip (ht : env.traced = false) (hguard : ∀ g : Guard, ∃ b, g.eval env.oracle = .ok b)
    (hsilent : e.isEpsilon = true) (hcall : e.label.follow? = none) :
    follow env c e collecting inRule s = .ok ((guardBehind env c e collecting inRule).map
      fun g => { c with state := e.target, guard := g }) s := by
  unfold follow guardBehind
  obtain ⟨target, label⟩ := e
  cases label with
  | call rule precedence ret => cases hcall
  | precedence p => exact traceGuard_off ht _ _ (followGuard_eq hguard _ rfl _ _)
  | predicate r p needsContext => exact traceGuard_off ht _ _ (followGuard_eq hguard _ rfl _ _)
  | action r a needsContext =>
    dsimp only
    rw [Run.bind_ok (tell_off ht _)]
    rfl
  | epsilon outermost => rfl
  | atom x => cases hsilent
  | range lo hi => cases hsilent
  | set x => cases hsilent
  | notSet x => cases hsilent
  | wildcard => cases hsilent

theorem follow_call (ht : env.traced = false) {ret : Nat} (hcall : e.label.follow? = some ret) :
    follow env c e collecting inRule s =
      .ok (some { c with state := e.target, context := c.context.push ret }) s := by
  obtain ⟨target, label⟩ := e
  unfold follow
  cases label with
  | call rule precedence follow =>
    obtain rfl : follow = ret := Option.some.inj hcall
    dsimp only
    rw [if_neg (by simp [ht])]
    rfl
  | _ => cases hcall

theorem follow_reads (hsilent : e.isEpsilon = false) :
    follow env c e collecting inRule s = .ok
      (if env.throughEof = true ∧ e.label.reads Symbol.eof 0 1 = true then some { c with state := e.target }
        else none) s := by
  obtain ⟨target, label⟩ := e
  unfold follow
  cases label with
  | atom x => rfl
  | range lo hi => rfl
  | set x => rfl
  | notSet x => simp [Label.reads, Symbol.eof]
  | wildcard => simp [Label.reads, Symbol.eof]
  | _ => cases hsilent

theorem leaveRule_eq {outermost : Int} (hlabel : e.label = .epsilon outermost) :
    leaveRule env c e = .ok { c with
      outer := c.outer + 1
      spared := sparedBehind env c.spared outermost } := by
  unfold leaveRule sparedBehind
  cases env.recursiveRule with
  | none => rfl
  | some r =>
    rw [hlabel]

/-! ## Entries that can be left out -/

variable {net : Network} {rank : Nat → Nat} {ends : Nat → Bool} {wild : Bool}

theorem except_ok_bind {α β ε : Type} (a : α) (f : α → Except ε β) : (Except.ok a >>= f) = f a := rfl

theorem mapM_ok {α β ε : Type} {f : α → Except ε β} {g : α → β} {xs : List α}
    (h : ∀ x ∈ xs, f x = .ok (g x)) : xs.mapM f = .ok (xs.map g) := by
  induction xs with
  | nil => rfl
  | cons x xs ih =>
    rw [List.mapM_cons, h x List.mem_cons_self, ih fun y hy => h y (List.mem_cons_of_mem _ hy)]
    rfl

theorem canSkipEntry_ok (hnet : Charted net rank ends) (hc : Proper net.states.size wild c.context) :
    ∃ b, canSkipEntry net c = .ok b := by
  unfold canSkipEntry
  obtain ⟨b, hpath, hbottom⟩ := hc.hasEmptyPath_eq hnet.small
  dsimp only
  split
  · exact ⟨false, rfl⟩
  · next hentry =>
    simp only [not_or, not_not, Bool.not_eq_true', Bool.not_eq_false] at hentry
    rw [hc.isEmpty_eq hnet.small, hpath, except_ok_bind]
    split
    · exact ⟨false, rfl⟩
    rw [except_ok_bind]
    split
    · exact ⟨false, rfl⟩
    next hb =>
    have hne : ∀ f ∈ c.context.frames, f.2 ≠ StackContext.bottom := by
      intro f hf hf2
      exact hb (hbottom.2 ⟨f.1, hf2 ▸ hf⟩)
    have hrets : (c.context.frames.mapM fun f => net.stateAt f.2) =
        .ok (c.context.frames.map fun f => f.2.toNat) := by
      refine mapM_ok fun f hf => ?_
      have hrange := hc.range f hf (hne f hf)
      exact Lookahead.stateAt_eq hrange.1 (by omega)
    obtain ⟨e, blockEnd, he, hblock⟩ := hnet.loop c.state hentry.1 hentry.2
    have hfirst := he
    rw [Network.edges] at hfirst
    rw [hrets, hfirst, Option.map_some, hblock, except_ok_bind]
    split
    · exact ⟨false, rfl⟩
    · exact ⟨_, rfl⟩

end Prediction

end Throbac
