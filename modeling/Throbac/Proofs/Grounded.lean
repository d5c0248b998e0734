import Throbac.Stack.Context

/-!
# Networks without idle loops

A search that reads nothing goes along edges, into called rules and back out of them. In a grounded
network such a search comes to an end: every state has a rank that falls along it, and the search
returns from a call only where the called rule can be passed without reading.
-/
namespace Throbac

def Label.follow? : Label → Option Nat
  | .call _ _ follow => some follow
  | _ => none

/-- Every silent edge goes down in rank, and `ends` holds of the states from which the end of the
rule can be reached without reading. -/
structure Grounded (net : Network) (rank : Nat → Nat) (ends : Nat → Bool) : Prop where
  /-- No state is as far as the bottom of a stack. -/
  small : (net.states.size : Int) ≤ StackContext.bottom
  stop : ∀ n, (net.state n).isRuleStop = true → ends n = true
  slip : ∀ n, (net.state n).isRuleStop = false → ∀ e ∈ net.edges n, e.isEpsilon = true →
    e.label.follow? = none → rank e.target < rank n ∧ (ends e.target = true → ends n = true)
  call : ∀ n, (net.state n).isRuleStop = false → ∀ e ∈ net.edges n, ∀ ret,
    e.label.follow? = some ret → ret < net.states.size ∧
      rank e.target + (if ends e.target then 1 + rank ret else 0) < rank n ∧
      (ends e.target = true → ends ret = true → ends n = true)

namespace StackContext

/-- A single stack of states of a network of the given size, above nothing or the empty stack. -/
def IsStack (size : Nat) : StackContext → Prop
  | null | empty => True
  | single p r => 0 ≤ r ∧ r < size ∧ p.IsStack size
  | array .. => False

/-- How far a search can go below the top of a stack. -/
def load (rank : Nat → Nat) (ends : Nat → Bool) : StackContext → Nat
  | single p r => 1 + rank r.toNat + (if ends r.toNat then p.load rank ends else 0)
  | _ => 0

theorem load_push {size : Nat} {c : StackContext} (h : c.IsStack size) (hs : (size : Int) ≤ bottom)
    {r : Nat} (hr : r < size) (rank : Nat → Nat) (ends : Nat → Bool) :
    (c.push r).load rank ends = 1 + rank r + (if ends r then c.load rank ends else 0) := by
  have hb : ¬ (r : Int) = bottom := by omega
  cases c <;> simp_all [StackContext.push, IsStack, load]

theorem load_le {rank : Nat → Nat} {k : Nat} (hk : ∀ n, rank n ≤ k) (ends : Nat → Bool) :
    ∀ c : StackContext, c.load rank ends ≤ (k + 1) * c.height
  | single p r => by
    have hp := load_le hk ends p
    have hr := hk r.toNat
    rw [load, height, Nat.mul_add]
    split <;> omega
  | null | empty => by simp [load]
  | array .. => by simp [load]

end StackContext

/-- How far a search can go from a state with the given stack. -/
def Network.reachDepth (rank : Nat → Nat) (ends : Nat → Bool) (n : Nat) (c : StackContext) : Nat :=
  rank n + (if ends n then c.load rank ends else 0)

namespace Grounded

variable {net : Network} {rank : Nat → Nat} {ends : Nat → Bool} (h : Grounded net rank ends)
  {n : Nat} {e : Edge} {c : StackContext}
include h

theorem depth_slip (hn : (net.state n).isRuleStop = false) (he : e ∈ net.edges n)
    (hs : e.isEpsilon = true) (hf : e.label.follow? = none) :
    Network.reachDepth rank ends e.target c < Network.reachDepth rank ends n c := by
  obtain ⟨hrank, hends⟩ := h.slip n hn e he hs hf
  unfold Network.reachDepth
  split
  · next ht =>
    rw [if_pos (hends ht)]
    omega
  · omega

theorem depth_call (hn : (net.state n).isRuleStop = false) (he : e ∈ net.edges n) {ret : Nat}
    (hf : e.label.follow? = some ret) (hc : c.IsStack net.states.size) :
    Network.reachDepth rank ends e.target (c.push ret) < Network.reachDepth rank ends n c := by
  obtain ⟨hret, hrank, hends⟩ := h.call n hn e he ret hf
  unfold Network.reachDepth
  rw [StackContext.load_push hc h.small hret]
  split
  · next ht =>
    rw [if_pos ht] at hrank
    split
    · next hr =>
      rw [if_pos (hends ht hr)]
      omega
    · omega
  · next ht =>
    rw [if_neg ht] at hrank
    omega

theorem depth_return (hn : (net.state n).isRuleStop = true) {p : StackContext} {r : Int} :
    Network.reachDepth rank ends r.toNat p <
      Network.reachDepth rank ends n (.single p r) := by
  unfold Network.reachDepth
  rw [if_pos (h.stop n hn), StackContext.load]
  split <;> omega

end Grounded

end Throbac
