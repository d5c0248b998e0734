import Mathlib.Tactic.NormNum
import Throbac.Proofs.Grammar.Budget
import Throbac.Proofs.Parsing.Network
import Throbac.Proofs.Prediction.Reading

/-!
# The parser's network as a chart for predictions

The network of the language has all that predictions ask of a network: silent ways come to an end, also
those past the end of the input, edges stay within their rules, and the alternatives of a choice start
with the symbols they are known to start with. All of it is decided by looking at the network once.
-/
namespace Throbac

namespace Network

variable {net : Network}

theorem state_of_listed {P : NetState → Nat → Bool}
    (h : (net.states.toList.zipIdx.all fun p => P p.1 p.2) = true) (hdefault : ∀ n, P default n = true)
    (n : Nat) : P (net.state n) n = true := by
  by_cases hn : n < net.states.size
  · refine List.all_eq_true.1 h (net.state n, n) (List.mem_zipIdx_iff_getElem?.2 ?_)
    simp [Network.state, Array.getD, hn]
  · rw [show net.state n = default by simp [Network.state, Array.getD, hn]]
    exact hdefault n

/-! ## Edges -/

def isPlain : Label → Bool
  | .epsilon _ => true
  | _ => false

def isPredicate : Label → Bool
  | .predicate .. => true
  | _ => false

/-- What is asked of an edge beyond what a grounded network asks. -/
def chartedEdge (look : Nat → NetState) (size : Nat) (rank : Nat → Nat) (ends : Nat → Bool) (s : NetState)
    (n : Nat) (e : Edge) : Bool :=
  decide (e.target < size) && e.isEpsilon == s.epsilonOnly && !isPredicate e.label
    && (if s.isRuleStop then isPlain e.label
      else (!e.label.reads Symbol.eof 0 1
          || (decide (rank e.target < rank n) && (!ends e.target || ends n)))
        && (look (e.label.follow?.getD e.target)).rule == s.rule)

def chartedState (look : Nat → NetState) (size : Nat) (stops : List Nat) (rank : Nat → Nat) (ends : Nat → Bool)
    (s : NetState) (n : Nat) : Bool :=
  (s.edges.all (chartedEdge look size rank ends s n))
    && (s.epsilonOnly || decide (s.edges.size ≤ 1))
    && (!s.isRuleStop || stops.contains n)
    && (!(s.kind == .starLoopEntry && s.precedenceDecision)
      || (s.edges[0]?.bind fun e => (look e.target).endState).isSome)

theorem chartedState_default (look : Nat → NetState) (size : Nat) (stops : List Nat) (rank : Nat → Nat)
    (ends : Nat → Bool) (n : Nat) : chartedState look size stops rank ends default n = true := by
  have hedges : (default : NetState).edges = #[] := rfl
  have hstop : (default : NetState).isRuleStop = false := rfl
  have hkind : (default : NetState).kind = .basic := rfl
  simp [chartedState, hedges, hstop, hkind]

/-- The network with edges that read the end of the input as silent ones. -/
def throughEof (look : Nat → NetState) (n : Nat) : NetState :=
  { look n with edges := (look n).edges.map fun e =>
      if e.label.reads Symbol.eof 0 1 then { e with label := .epsilon (-1) } else e }

/-! ## What alternatives start with -/

/-- Whether the edge reads none but symbols with the property. -/
def reading (P : Int → Bool) : Label → Bool
  | .atom x => P x
  | .set xs => xs.toList.all P
  | _ => false

theorem of_reading {P : Int → Bool} {l : Label} (h : reading P l = true) {t lo hi : Int}
    (ht : l.reads t lo hi = true) : P t = true := by
  cases l with
  | atom x =>
    rw [Label.reads, beq_iff_eq] at ht
    exact ht ▸ h
  | set xs =>
    rw [Label.reads, SymbolSet.contains_iff, ← SymbolSet.mem_toList] at ht
    exact List.all_eq_true.1 h t ht
  | _ => cases h

/-- Whether none but the given symbols can be read first from a state on, without leaving its rule. -/
def opensWith (look : Nat → NetState) (xs : List Int) : Nat → Nat → Bool
  | 0, _ => false
  | fuel + 1, n => !(look n).isRuleStop && (look n).edges.all fun e =>
    if e.isEpsilon then opensWith look xs fuel e.target else reading xs.contains e.label

/-- Whether the alternatives of the decisions start as they are known to. -/
def opensAsKnown (look : Nat → NetState) (decisions : Array Nat) : Bool :=
  decisions.toList.zipIdx.all fun (n, d) => (look n).edges.toList.zipIdx.all fun (e, i) =>
    match Grammar.opening d (i + 1) with
    | some xs => !(look n).precedenceDecision && opensWith look xs 16 e.target
    | none => true

/-- None but the given symbols can be read first from the state on, without leaving its rule. -/
def Opens (net : Network) (xs : List Int) (n : Nat) : Prop := ∃ fuel, opensWith net.state xs fuel n = true

namespace Opens

variable {xs : List Int} {n : Nat} {e : Edge}

theorem goes (h : net.Opens xs n) : (net.state n).isRuleStop = false := by
  obtain ⟨fuel, h⟩ := h
  cases fuel with
  | zero => cases h
  | succ fuel =>
    simp only [opensWith, Bool.and_eq_true, Bool.not_eq_true'] at h
    exact h.1

theorem edge (h : net.Opens xs n) (he : e ∈ net.edges n) :
    (e.isEpsilon = true → net.Opens xs e.target) ∧
      ∀ t, e.label.reads t 0 net.maxSymbol = true → t ∈ xs := by
  obtain ⟨fuel, h⟩ := h
  cases fuel with
  | zero => cases h
  | succ fuel =>
    simp only [opensWith, Bool.and_eq_true] at h
    have hedge := Array.all_eq_true_iff_forall_mem.1 h.2 e he
    refine ⟨fun hsilent => ⟨fuel, by simpa [hsilent] using hedge⟩, fun t ht => ?_⟩
    have hloud : e.isEpsilon = false := by
      cases hl : e.label <;> simp_all [Label.reads, Edge.isEpsilon, Label.isEpsilon]
    rw [if_neg (by simp [hloud])] at hedge
    exact List.contains_iff_mem.1 (of_reading hedge ht)

end Opens

theorem opens_of_known (h : opensAsKnown net.state net.decisions = true) {n d i : Nat} {e : Edge}
    {xs : List Int} (hd : net.decisions[d]? = some n) (he : (net.edges n)[i]? = some e)
    (hxs : Grammar.opening d (i + 1) = some xs) :
    (net.state n).precedenceDecision = false ∧ net.Opens xs e.target := by
  simp only [opensAsKnown, List.all_eq_true] at h
  have hopens := h (n, d) (List.mk_mem_zipIdx_iff_getElem?.2 (by rwa [Array.getElem?_toList])) (e, i)
    (List.mk_mem_zipIdx_iff_getElem?.2 (by rwa [Array.getElem?_toList]))
  dsimp only at hopens
  rw [hxs] at hopens
  simp only [Bool.and_eq_true, Bool.not_eq_true'] at hopens
  exact ⟨hopens.1, _, hopens.2⟩

def endsApart (look : Nat → NetState) (stops : List Nat) : Bool :=
  stops.all fun n => stops.all fun m => (look n).rule != (look m).rule || n == m

/-- Whether decisions are made between plain edges, and those that know the precedence at the entry of a
loop. -/
def choosesPlainly (look : Nat → NetState) (decisions : Array Nat) : Bool :=
  decisions.all fun n => !(look n).isRuleStop && ((look n).edges.all fun e => isPlain e.label)
    && (!(look n).precedenceDecision || (look n).kind == .starLoopEntry)

theorem plain_of_checked (h : choosesPlainly net.state net.decisions = true) :
    ∀ n ∈ net.decisions, (net.state n).isRuleStop = false ∧
      ∀ e ∈ net.edges n, ∃ outermost, e.label = .epsilon outermost := by
  intro n hn
  have hs := Array.all_eq_true_iff_forall_mem.1 h n hn
  rw [Bool.and_eq_true, Bool.and_eq_true, Bool.not_eq_true'] at hs
  refine ⟨hs.1.1, fun e he => ?_⟩
  have hplain := Array.all_eq_true_iff_forall_mem.1 hs.1.2 e he
  cases hl : e.label <;> simp_all [isPlain]

theorem kind_of_checked (h : choosesPlainly net.state net.decisions = true) :
    ∀ n ∈ net.decisions, (net.state n).precedenceDecision = true → (net.state n).kind = .starLoopEntry := by
  intro n hn hprecedence
  have hs := Array.all_eq_true_iff_forall_mem.1 h n hn
  rw [Bool.and_eq_true] at hs
  simpa [hprecedence] using hs.2

section

variable {stops : List Nat} {rank : Nat → Nat} {ends : Nat → Bool}

/-- What is asked of a chart. -/
structure Surveyed (net : Network) (stops : List Nat) (rank : Nat → Nat) (ends : Nat → Bool) : Prop where
  grounded : net.isGrounded rank ends = true
  states : ∀ n, chartedState net.state net.states.size stops rank ends (net.state n) n = true

namespace Surveyed

variable (h : Surveyed net stops rank ends)
include h

theorem edge {n : Nat} {e : Edge} (he : e ∈ net.edges n) :
    chartedEdge net.state net.states.size rank ends (net.state n) n e = true := by
  have hs := h.states n
  simp only [chartedState, Bool.and_eq_true] at hs
  exact Array.all_eq_true_iff_forall_mem.1 hs.1.1.1 e he

theorem mem_stops {n : Nat} (hstop : (net.state n).isRuleStop = true) : n ∈ stops := by
  have hs := h.states n
  simp only [chartedState, hstop, Bool.and_eq_true, Bool.not_true, Bool.false_or,
    List.contains_iff_mem] at hs
  exact hs.1.2

theorem toCharted : Charted net rank ends := by
  refine { grounded_of_isGrounded h.grounded with
    targets := ?_, eof := ?_, waits := ?_, unconditional := ?_, falls := ?_, loop := ?_ }
  · intro n e he
    have hs := h.edge he
    simp only [chartedEdge, Bool.and_eq_true, decide_eq_true_eq] at hs
    exact hs.1.1.1
  · intro n hstop e he hreads
    have hs := h.edge he
    simp only [chartedEdge, hstop, Bool.false_eq_true, if_false, hreads, Bool.not_true, Bool.false_or,
      Bool.and_eq_true, decide_eq_true_eq, Bool.or_eq_true, Bool.not_eq_true'] at hs
    exact ⟨hs.2.1.1, fun ht => by simpa [ht] using hs.2.1.2⟩
  · intro n hwaits
    have hs := h.states n
    simp only [chartedState, hwaits, Bool.and_eq_true, Bool.false_or, decide_eq_true_eq] at hs
    refine ⟨hs.1.1.2, fun e he => ?_⟩
    have hs := h.edge he
    simp only [chartedEdge, Bool.and_eq_true, beq_iff_eq] at hs
    exact hs.1.1.2.trans hwaits
  · intro n e he r p needsContext hlabel
    have hs := h.edge he
    simp [chartedEdge, hlabel, isPredicate] at hs
  · intro n hstop e he
    have hs := h.edge he
    simp only [chartedEdge, hstop, if_true, Bool.and_eq_true] at hs
    cases hl : e.label with
    | epsilon outermost => exact ⟨outermost, rfl⟩
    | _ =>
      rw [hl] at hs
      cases hs.2
  · intro n hkind hprecedence
    have hs := h.states n
    simp only [chartedState, hkind, hprecedence, Bool.and_eq_true, beq_self_eq_true, Bool.and_self,
      Bool.not_true, Bool.false_or, Option.isSome_iff_exists, Option.bind_eq_some_iff] at hs
    obtain ⟨-, blockEnd, e, he, hend⟩ := hs
    exact ⟨e, blockEnd, he, hend⟩

theorem wired : net.Wired := by
  have hrule {n : Nat} (hstop : (net.state n).isRuleStop = false) {e : Edge} (he : e ∈ net.edges n) :
      (net.state (e.label.follow?.getD e.target)).rule = (net.state n).rule := by
    have hs := h.edge he
    simp only [chartedEdge, hstop, Bool.false_eq_true, if_false, Bool.and_eq_true, beq_iff_eq] at hs
    exact hs.2.2
  constructor
  · intro n hstop e he hfollow
    simpa [hfollow] using hrule hstop he
  · intro n hstop e he ret hfollow
    simpa [hfollow] using hrule hstop he

end Surveyed

end

end Network

namespace Grammar

def stopStates : List Nat := [1, 3, 5, 7, 9, 11, 13, 15, 17, 19, 21]

def decisionStates : Array Nat := #[25, 37, 40, 46, 67, 73, 96, 108, 112, 126, 140, 142, 151, 154]

def chartEnds (n : Nat) : Bool := Network.silentEnd (Network.throughEof parserState) 24 n

def chartRank (n : Nat) : Nat :=
  min (Network.silentDepth (Network.throughEof parserState) 24 n) 160

set_option maxRecDepth 10000 in
theorem parserNetwork_chart_checked :
    (parserNetwork.isGrounded chartRank chartEnds
      && (parserNetwork.states.toList.zipIdx.all fun p =>
        Network.chartedState parserState 160 stopStates chartRank chartEnds p.1 p.2)
      && (parserNetwork.starts.size == 11 && parserNetwork.decisions == decisionStates)
      && Network.opensAsKnown parserState parserNetwork.decisions
      && Network.endsApart parserState stopStates
      && Network.choosesPlainly parserState parserNetwork.decisions) = true := by
  decide +kernel

theorem parserNetwork_surveyed : parserNetwork.Surveyed stopStates chartRank chartEnds := by
  have h := parserNetwork_chart_checked
  simp only [Bool.and_eq_true] at h
  obtain ⟨⟨⟨⟨⟨hgrounded, hstates⟩, -⟩, -⟩, -⟩, -⟩ := h
  rw [parserState_eq] at hstates
  refine ⟨hgrounded, ?_⟩
  rw [parserNetwork_size]
  exact Network.state_of_listed hstates (Network.chartedState_default _ _ _ _ _)

theorem parserNetwork_decisions : parserNetwork.decisions = decisionStates := by
  have h := parserNetwork_chart_checked
  simp only [Bool.and_eq_true, beq_iff_eq] at h
  exact h.1.1.1.2.2

theorem stop_unique {n m : Nat} (hn : (parserNetwork.state n).isRuleStop = true)
    (hm : (parserNetwork.state m).isRuleStop = true)
    (hrule : (parserNetwork.state n).rule = (parserNetwork.state m).rule) : n = m := by
  have h := parserNetwork_chart_checked
  simp only [Bool.and_eq_true, Network.endsApart, List.all_eq_true, Bool.or_eq_true, bne_iff_ne,
    beq_iff_eq] at h
  rw [parserState_eq] at h
  exact (h.1.2 n (parserNetwork_surveyed.mem_stops hn) m (parserNetwork_surveyed.mem_stops hm)).resolve_left
    fun hne => hne hrule

theorem parserNetwork_plain : ∀ n ∈ parserNetwork.decisions, (parserNetwork.state n).isRuleStop = false ∧
    ∀ e ∈ parserNetwork.edges n, ∃ outermost, e.label = .epsilon outermost := by
  have h := parserNetwork_chart_checked
  simp only [Bool.and_eq_true] at h
  rw [parserState_eq] at h
  exact Network.plain_of_checked h.2

theorem parserNetwork_kind : ∀ n ∈ parserNetwork.decisions, (parserNetwork.state n).precedenceDecision = true →
    (parserNetwork.state n).kind = .starLoopEntry := by
  have h := parserNetwork_chart_checked
  simp only [Bool.and_eq_true] at h
  rw [parserState_eq] at h
  exact Network.kind_of_checked h.2

theorem parserNetwork_mapped : Prediction.Mapped parserNetwork chartRank chartEnds 160 := by
  refine ⟨parserNetwork_surveyed.toCharted, fun n => Nat.min_le_right _ _, parserNetwork_surveyed.wired, ?_,
    fun _ _ => stop_unique, parserNetwork_plain⟩
  have h := parserNetwork_chart_checked
  simp only [Bool.and_eq_true, beq_iff_eq] at h
  rw [Prediction.Wide, parserNetwork_size, h.1.1.1.2.1]
  decide

theorem parserNetwork_opens {n d i : Nat} {e : Edge} {xs : List Int}
    (hd : parserNetwork.decisions[d]? = some n) (he : (parserNetwork.edges n)[i]? = some e)
    (hxs : opening d (i + 1) = some xs) :
    (parserNetwork.state n).precedenceDecision = false ∧ parserNetwork.Opens xs e.target := by
  have h := parserNetwork_chart_checked
  simp only [Bool.and_eq_true] at h
  rw [parserState_eq] at h
  exact Network.opens_of_known h.1.1.2 hd he hxs

end Grammar

end Throbac
