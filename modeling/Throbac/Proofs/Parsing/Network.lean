import Throbac.Grammar.Rules
import Throbac.Proofs.Shelf
import Throbac.Proofs.Lookahead.Tables

/-!
# The parser's network

The network of the language is grounded, its symbols have names, and the rules stand at states that
do what the rules say. All of it is decided by looking at the network once.
-/
namespace Throbac

namespace Network

/-- A function of a number that is worked out first, so that the kernel meets equal calls again. -/
def eagerly {α : Type} (f : Nat → α) : Nat → α
  | 0 => f 0
  | n + 1 => f (n + 1)

/-- Whether the end of the rule can be reached without reading, as far as a number of steps shows. -/
def silentEnd (look : Nat → NetState) : Nat → Nat → Bool
  | 0, _ => false
  | fuel + 1, n =>
    (look n).isRuleStop || (look n).edges.any fun e =>
      match e.label.follow? with
      | some ret => eagerly (silentEnd look fuel) e.target && eagerly (silentEnd look fuel) ret
      | none => e.isEpsilon && eagerly (silentEnd look fuel) e.target

/-- The most silent steps in a row from a state, counted up to a depth. -/
def silentDepth (look : Nat → NetState) : Nat → Nat → Nat
  | 0, _ => 0
  | fuel + 1, n =>
    if (look n).isRuleStop then 0
    else (look n).edges.foldl (fun k e => max k (match e.label.follow? with
      | some ret => eagerly (silentDepth look fuel) e.target + 1
          + (if eagerly (silentEnd look fuel) e.target then 1 + eagerly (silentDepth look fuel) ret
            else 0)
      | none => if e.isEpsilon then eagerly (silentDepth look fuel) e.target + 1 else 0)) 0

/-- Whether an edge from `n` meets what a grounded network asks of it. -/
def groundedEdge (size : Nat) (rank : Nat → Nat) (ends : Nat → Bool) (n : Nat) (e : Edge) : Bool :=
  match e.label.follow? with
  | some ret =>
    decide (ret < size) &&
    decide (rank e.target + (if ends e.target then 1 + rank ret else 0) < rank n) &&
    (!(ends e.target && ends ret) || ends n)
  | none => !e.isEpsilon || (decide (rank e.target < rank n) && (!ends e.target || ends n))

def groundedState (size : Nat) (rank : Nat → Nat) (ends : Nat → Bool) (s : NetState) (n : Nat) :
    Bool :=
  (!s.isRuleStop || ends n) && s.edges.all fun e => s.isRuleStop || groundedEdge size rank ends n e

def isGrounded (net : Network) (rank : Nat → Nat) (ends : Nat → Bool) : Bool :=
  decide ((net.states.size : Int) ≤ StackContext.bottom) &&
  net.states.toList.zipIdx.all fun (s, n) => groundedState net.states.size rank ends s n

theorem groundedState_of_isGrounded {net : Network} {rank : Nat → Nat} {ends : Nat → Bool}
    (h : isGrounded net rank ends = true) (n : Nat) :
    groundedState net.states.size rank ends (net.state n) n = true := by
  simp only [isGrounded, Bool.and_eq_true, decide_eq_true_eq, List.all_eq_true] at h
  by_cases hn : n < net.states.size
  · refine h.2 (net.state n, n) (List.mem_zipIdx_iff_getElem?.2 ?_)
    simp [Network.state, Array.getD, hn]
  · have hd : net.state n = default := by simp [Network.state, Array.getD, hn]
    have he : (default : NetState).edges = #[] := rfl
    have hs : (default : NetState).isRuleStop = false := rfl
    simp [hd, groundedState, he, hs]

theorem grounded_of_isGrounded {net : Network} {rank : Nat → Nat} {ends : Nat → Bool}
    (h : isGrounded net rank ends = true) : Grounded net rank ends := by
  have hedge : ∀ n, (net.state n).isRuleStop = false → ∀ e ∈ net.edges n,
      groundedEdge net.states.size rank ends n e = true := by
    intro n hn e he
    have hs := groundedState_of_isGrounded h n
    simp only [groundedState, hn, Bool.false_or, Bool.and_eq_true] at hs
    exact Array.all_eq_true_iff_forall_mem.1 hs.2 e he
  refine ⟨?_, fun n hn => ?_, fun n hn e he heps hf => ?_, fun n hn e he ret hf => ?_⟩
  · simp only [isGrounded, Bool.and_eq_true, decide_eq_true_eq] at h
    exact h.1
  · have hs := groundedState_of_isGrounded h n
    simp only [groundedState, hn, Bool.not_true, Bool.false_or, Bool.and_eq_true] at hs
    exact hs.1
  · have := hedge n hn e he
    simp only [groundedEdge, hf, heps, Bool.not_true, Bool.false_or, Bool.and_eq_true,
      decide_eq_true_eq, Bool.or_eq_true, Bool.not_eq_true'] at this
    exact ⟨this.1, fun ht => by simpa [ht] using this.2⟩
  · have := hedge n hn e he
    simp only [groundedEdge, hf, Bool.and_eq_true, decide_eq_true_eq, Bool.or_eq_true,
      Bool.not_eq_true', Bool.and_eq_false_iff] at this
    exact ⟨this.1.1, this.1.2, fun ht hr => by simpa [ht, hr] using this.2⟩

/-- Whether an edge of a state of the rule is one of a grammar. -/
def formedEdge (net : Network) (look : Nat → NetState) (rule : Int) (e : Edge) : Bool :=
  match e.label.follow? with
  | some ret =>
    decide (ret < net.states.size) && decide ((look ret).rule = rule) && decide (0 ≤ (look e.target).rule)
      && decide (net.starts[(look e.target).rule.toNat]? = some e.target)
  | none => decide ((look e.target).rule = rule)

def isFormed (net : Network) (look : Nat → NetState) : Bool :=
  decide ((net.states.size : Int) ≤ StackContext.bottom) && net.states.all fun s => s.edges.all fun e =>
    e.label.isProper && decide (e.target < net.states.size) && (s.isRuleStop || net.formedEdge look s.rule e)

theorem formed_of_isFormed {net : Network} (h : net.isFormed net.state = true) :
    net.Formed ∧ net.Fits ∧ ∀ n, ∀ e ∈ net.edges n, e.target < net.states.size := by
  simp only [isFormed, Bool.and_eq_true, decide_eq_true_eq, Array.all_eq_true_iff_forall_mem] at h
  have hall : ∀ n, ∀ e ∈ net.edges n, (e.label.isProper = true ∧ e.target < net.states.size) ∧
      ((net.state n).isRuleStop || net.formedEdge net.state (net.state n).rule e) = true := by
    intro n e he
    by_cases hn : n < net.states.size
    · exact h.2 (net.state n) (by simp [Network.state, Array.getD, hn]) e he
    · simp [Network.edges, Network.state, Array.getD, hn, show (default : NetState).edges = #[] from rfl] at he
  have hedge : ∀ n, (net.state n).isRuleStop = false → ∀ e ∈ net.edges n,
      net.formedEdge net.state (net.state n).rule e = true :=
    fun n hstop e he => by simpa [hstop] using (hall n e he).2
  refine ⟨⟨h.1, fun n _ e he => (hall n e he).1.2, fun n hstop e he hf => ?_, fun n hstop e he ret hf => ?_,
    fun n _ e he => (Label.proper_of_isProper (hall n e he).1.1).1⟩,
    fun n _ e he => (Label.proper_of_isProper (hall n e he).1.1).2, fun n e he => (hall n e he).1.2⟩
  · simpa [formedEdge, hf] using hedge n hstop e he
  · have hcall := hedge n hstop e he
    simp only [formedEdge, hf, Bool.and_eq_true, decide_eq_true_eq] at hcall
    obtain ⟨⟨⟨hret, hrule⟩, hnat⟩, hstart⟩ := hcall
    exact ⟨hret, hrule, _, hstart, (Int.toNat_of_nonneg hnat).symm⟩

def width (net : Network) (decision : Int) : Nat :=
  (net.edges (net.decisions.getD decision.toNat 0)).size

end Network

def precedenceLevels : List Int := [0, 7, 8, 9, 10]

/-- The decisions that are left to prediction, each with the rule it belongs to. -/
def predictedDecisions : List (Int × Nat) := [(0, 0), (4, 6), (8, 8), (10, 9), (11, 9)]

namespace Part

/-- Whether a number is that of one of `size` states. -/
def isState (size : Nat) (n : Int) : Bool := decide (0 ≤ n) && decide (n < size)

/-- Whether a state calls the rule at the precedence. -/
def isCall (look : Nat → NetState) (size rule : Nat) (precedence n : Int) : Bool :=
  match (look n.toNat).edges[0]?.map Edge.label with
  | some (.call r p follow) => r == rule && p == precedence && decide (follow < size)
  | _ => false

/-- Whether a number is that of a predicted decision of the rule, with the given number of
alternatives. -/
def isDecision (width : Int → Nat) (rule alternatives : Nat) (d : Int) : Bool :=
  decide ((d, rule) ∈ predictedDecisions) && width d == alternatives

variable (look : Nat → NetState) (size : Nat) (width : Int → Nat) (rule : Nat)

mutual

/-- Whether a part of a rule stands at states that do what the part says; `width` gives the number
of alternatives of a decision. -/
def isPlaced : Part → Bool
  | .token n _ | .operator n _ => isState size n && (look n.toNat).edges[0]?.isSome
  | .phrase n called precedence =>
    isState size n && isCall look size called precedence n && decide (called < 11)
      && decide (precedence ∈ precedenceLevels)
  | .optional n _ ps => isState size n && arePlaced ps
  | .many n back _ ps => isState size n && isState size back && arePlaced ps
  | .manyPredicted n back d ps =>
    isState size n && isState size back && isDecision width rule 2 d && arePlaced ps

def arePlaced : List Part → Bool
  | [] => true
  | p :: ps => isPlaced p && arePlaced ps

end

end Part

/-- Whether the rule with number `n` stands at states that do what the rule says. -/
def Rule.isPlaced (look : Nat → NetState) (size : Nat) (width : Int → Nat) (n : Nat) (r : Rule) :
    Bool :=
  Part.isState size r.enter && match r.body with
  | .sequence ps => Part.arePlaced look size width n ps
  | .choice s d as =>
    Part.isState size s && Part.isDecision width n as.length d
      && as.all fun a => Part.arePlaced look size width n a.parts
  | .recursion b =>
    Part.isState size b.state && Part.isState size b.loop && Part.isState size b.back
      && Part.isState size b.choice && Part.isDecision width n 2 b.loopDecision
      && Part.isDecision width n b.suffixes.length b.choiceDecision
      && (b.operands.all fun a => Part.arePlaced look size width n a.parts)
      && b.suffixes.all fun s => Part.isState size s.state && Part.arePlaced look size width n s.parts

namespace Grammar

def parserState (n : Nat) : NetState := parserNetwork.shelf.get default n

def parserWidth (d : Int) : Nat := (parserState (parserNetwork.decisions.getD d.toNat 0)).edges.size

set_option maxRecDepth 10000 in
theorem parserNetwork_checked :
    (parserNetwork.isFormed parserState && decide (parserNetwork.states.size = 160)
      && (rules.toList.zipIdx.all fun (r, n) => r.isPlaced parserState 160 parserWidth n)
      && predictedDecisions.all fun x => decide ((if x.1 = 8 then 8 else 2) ≤ parserWidth x.1)) = true := by
  decide +kernel

theorem parserNetwork_size : parserNetwork.states.size = 160 := by
  have h := parserNetwork_checked
  simp only [Bool.and_eq_true, decide_eq_true_eq] at h
  exact h.1.1.2

theorem parserState_eq : parserState = parserNetwork.state := by
  have h : parserNetwork.states.size ≤ 512 := by
    have := parserNetwork_size
    omega
  exact Network.get_shelf h

theorem parserNetwork_formed : parserNetwork.Formed ∧ parserNetwork.Fits ∧
    ∀ n, ∀ e ∈ parserNetwork.edges n, e.target < parserNetwork.states.size := by
  have h := parserNetwork_checked
  simp only [Bool.and_eq_true, parserState_eq] at h
  exact Network.formed_of_isFormed h.1.1.1

theorem parserWidth_eq : parserWidth = parserNetwork.width := by
  funext d
  rw [parserWidth, parserState_eq, Network.width, Network.edges]

/-- Every decision has alternatives, and that on statements has eight. -/
theorem width_predicted {d : Int} {rule : Nat} (h : (d, rule) ∈ predictedDecisions) :
    (if d = 8 then 8 else 2) ≤ parserNetwork.width d := by
  have hall := parserNetwork_checked
  rw [Bool.and_eq_true, parserWidth_eq] at hall
  exact of_decide_eq_true (List.all_eq_true.1 hall.2 (d, rule) h)

theorem isPlaced_rules {n : Nat} {r : Rule} (hr : rules[n]? = some r) :
    r.isPlaced parserNetwork.state 160 parserNetwork.width n = true := by
  have h := parserNetwork_checked
  simp only [Bool.and_eq_true] at h
  rw [parserState_eq, parserWidth_eq] at h
  exact List.all_eq_true.1 h.1.2 (r, n) (List.mk_mem_zipIdx_iff_getElem?.2 (by simpa using hr))

end Grammar

end Throbac
