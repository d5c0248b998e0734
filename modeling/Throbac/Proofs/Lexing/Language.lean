import Throbac.Grammar.Specs
import Throbac.Proofs.Shelf
import Throbac.Proofs.Lexing.Matching

/-!
# The network of the language

The network of the language is plain and spells the lexical grammar. Both are decided by looking at
the network once.
-/
namespace Throbac

namespace Lexing

/-- The most slips in a row from a state, counted up to a depth. -/
def slipCount (look : Nat → NetState) : Nat → Nat → Nat
  | 0, _ => 0
  | fuel + 1, n =>
    if (look n).isRuleStop then 0
    else (look n).edges.foldl (fun k e => max k (match e.label with
      | .epsilon _ | .action .. => slipCount look fuel e.target + 1
      | .call _ _ ret => slipCount look fuel e.target + slipCount look fuel ret + 2
      | _ => 0)) 0

/-- A rank of the states of a network of `size` states that falls along slips, if no more than a
dozen come in a row. -/
def slipRank (look : Nat → NetState) (size : Nat) (n : Nat) : Nat := min (slipCount look 12 n) size

/-- Whether a state meets what a plain network asks of it. -/
def plainState (net : Network) (rank : Nat → Nat) (s : NetState) (n : Nat) : Bool :=
  !s.prefersExit && s.edges.all fun e =>
    plainLabel net e.label &&
    (e.isEpsilon || (!s.isRuleStop && !s.epsilonOnly)) &&
    (s.isRuleStop || !e.isEpsilon || falls rank (rank n) e)

def isPlain (net : Network) (rank : Nat → Nat) : Bool :=
  decide ((net.states.size : Int) ≤ StackContext.bottom) &&
  (net.states.toList.zipIdx.all fun (s, n) => plainState net rank s n) &&
  (match net.actions with
  | some as => as.all fun a => !(a matches .custom ..)
  | none => false)

theorem plain_of_isPlain {net : Network} {rank : Nat → Nat} (h : isPlain net rank = true)
    (hlow : ∀ n, rank n ≤ net.states.size) : Plain net rank := by
  simp only [isPlain, Bool.and_eq_true, decide_eq_true_eq, List.all_eq_true] at h
  obtain ⟨⟨hsmall, hstates⟩, hactions⟩ := h
  have hstate : ∀ n, plainState net rank (net.state n) n = true := by
    intro n
    by_cases hn : n < net.states.size
    · refine hstates (net.state n, n) (List.mem_zipIdx_iff_getElem?.2 ?_)
      simp [Network.state, Array.getD, hn]
    · have hd : net.state n = default := by simp [Network.state, Array.getD, hn]
      have he : (default : NetState).edges = #[] := rfl
      have hg : (default : NetState).prefersExit = false := rfl
      simp [hd, plainState, he, hg]
  have hedge : ∀ n, ∀ e ∈ net.edges n, plainLabel net e.label = true ∧
      (e.isEpsilon = true ∨ (net.state n).isRuleStop = false ∧ (net.state n).epsilonOnly = false) ∧
      ((net.state n).isRuleStop = true ∨ e.isEpsilon = false ∨
        falls rank (rank n) e = true) := by
    intro n e he
    have h := (Bool.and_eq_true_iff.1 (hstate n)).2
    have := Array.all_eq_true_iff_forall_mem.1 h e he
    simp only [Bool.and_eq_true, Bool.or_eq_true, Bool.not_eq_true'] at this
    exact ⟨this.1.1, this.1.2, by tauto⟩
  refine ⟨hsmall, fun n => ?_, fun n e he => (hedge n e he).1, fun n e he hne => ?_,
    fun n hs e he => ?_, hlow, ?_⟩
  · simpa using (Bool.and_eq_true_iff.1 (hstate n)).1
  · rcases (hedge n e he).2.1 with h | h
    · simp [hne] at h
    · exact h
  · rcases (hedge n e he).2.2 with h | h | h
    · simp [hs] at h
    · unfold falls
      cases hl : e.label <;> simp_all [Edge.isEpsilon, Label.isEpsilon]
    · exact h
  · split at hactions
    · rename_i as ha
      refine ⟨as, ha, fun a hm r i hc => ?_⟩
      have := Array.all_eq_true_iff_forall_mem.1 hactions a hm
      simp [hc] at this
    · contradiction

end Lexing

namespace Grammar

open Lexing

def lexerState (n : Nat) : NetState := lexerNetwork.shelf.get default n

def lexerRank (n : Nat) : Nat := slipRank lexerState lexerNetwork.states.size n

set_option maxRecDepth 10000 in
theorem lexerNetwork_checked :
    (isPlain lexerNetwork lexerRank && spellsRules lexerNetwork lexerState 0 Lexicon.rules
      && decide (lexerNetwork.states.size ≤ 512) && decide (lexerNetwork.modes = #[0])
      && lexerNetwork.tokenTypes.isSome && decide (0 < lexerNetwork.decisions.size)) = true := by
  decide +kernel

theorem lexerState_eq : lexerState = lexerNetwork.state := by
  have h := lexerNetwork_checked
  simp only [Bool.and_eq_true, decide_eq_true_eq] at h
  exact Network.get_shelf h.1.1.1.2

theorem lexerNetwork_plain : Plain lexerNetwork lexerRank := by
  have h := lexerNetwork_checked
  simp only [Bool.and_eq_true] at h
  exact plain_of_isPlain h.1.1.1.1.1 fun n => Nat.min_le_right _ _

theorem lexerNetwork_spells :
    spellsRules lexerNetwork lexerNetwork.state 0 Lexicon.rules = true := by
  have h := lexerNetwork_checked
  simp only [Bool.and_eq_true] at h
  rw [← lexerState_eq]
  exact h.1.1.1.1.2

theorem lexerNetwork_modes : lexerNetwork.modes = #[0] := by
  have h := lexerNetwork_checked
  simp only [Bool.and_eq_true, decide_eq_true_eq] at h
  exact h.1.1.2

theorem lexerNetwork_tokenTypes : lexerNetwork.tokenTypes.isSome = true := by
  have h := lexerNetwork_checked
  simp only [Bool.and_eq_true] at h
  exact h.1.2

theorem lexerNetwork_decisions : 0 < lexerNetwork.decisions.size := by
  have h := lexerNetwork_checked
  simp only [Bool.and_eq_true, decide_eq_true_eq] at h
  exact h.2

end Grammar

end Throbac
