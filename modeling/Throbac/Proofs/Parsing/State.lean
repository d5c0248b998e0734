import Throbac.Proofs.Outcome
import Throbac.Proofs.Stream.Moves
import Throbac.Proofs.Parsing.Network

/-!
# Parsers in good order

What holds of a parser of the language between any two steps: its settings are plain, it stands at a
place of its tape, and the rules in progress called one another. Looking at the input or at the table
of symbols changes nothing of this, and reports are only ever added.
-/
namespace Throbac

open TokenStream (On At Holds)

theorem Grammar.parserSpec_network : parserSpec.network = parserNetwork := by rw [parserSpec]

/-- A condition on what predictions have left in the caches. -/
abbrev CacheCondition := Array (Automaton ConfigSet) → ContextCache → Prop

namespace Parser

def place (p : Parser) : Nat := p.core.stream.index.toNat

/-- The settings of a parser of the language that builds a tree and recovers from errors. -/
structure Plain (p : Parser) : Prop where
  spec : p.core.spec = Grammar.parserSpec
  connected : p.core.connected = true
  mode : p.core.mode = .ll
  logging : p.core.logging = true
  remarks : p.core.remarks = false
  diagnosis : p.core.diagnosis = none
  watch : p.core.watch = {}
  building : p.building = true
  bails : p.bails = false
  listeners : p.listeners = none

structure Ready (R : CacheCondition) (p : Parser) : Prop extends Plain p where
  caches : R p.core.automata p.core.contexts
  merges : p.core.merges = none
  precedences : p.core.precedences ≠ [] ∧ ∀ q ∈ p.core.precedences, q ∈ precedenceLevels
  looks : p.core.looks.Named
  rules : ∀ c ∈ p.callers, 0 ≤ c.rule ∧ c.rule < 11
  state : p.stack ≠ [] → Part.isState 160 p.core.state = true

/-- A parser within a rule. -/
structure Steady (R : CacheCondition) (T : Tape) (p : Parser) : Prop extends Ready R p where
  on : On T p.place p.core.stream
  invoked : Invoked Grammar.parserNetwork p.callers.invocations

/-- A parser within a rule that is not about to report an error. -/
structure Good (R : CacheCondition) (T : Tape) (p : Parser) : Prop extends Steady R T p where
  recovering : p.recovering = true → p.core.reports ≠ #[]

/-- The parser has looked at the input and stands at the place `i` now; all else is as it was. -/
structure Shift (R : CacheCondition) (T : Tape) (i : Nat) (p p' : Parser) : Prop where
  ready : Ready R p'
  on : On T i p'.core.stream
  stack : p'.stack = p.stack
  state : p'.core.state = p.core.state
  precedences : p'.core.precedences = p.core.precedences
  recovering : p'.recovering = p.recovering
  lastErrorIndex : p'.lastErrorIndex = p.lastErrorIndex
  lastErrorStates : p'.lastErrorStates = p.lastErrorStates
  reports : ∃ rs, p'.core.reports = p.core.reports ++ rs ∧ (T.silent = true → rs = #[])

/-- The parser has looked around and is where it was. -/
abbrev Still (R : CacheCondition) (T : Tape) (p p' : Parser) : Prop := Shift R T p.place p p'

variable {R : CacheCondition} {T : Tape} {p p' p'' : Parser} {i j : Nat}

theorem place_of_on (h : On T i p.core.stream) : p.place = i := by
  rw [place, h.index]
  exact Int.toNat_natCast i

theorem Steady.stack_ne_nil (h : Steady R T p) : p.stack ≠ [] := by
  intro hs
  exact h.invoked.ne_nil (by simp [callers, Callers.invocations, hs])

theorem Steady.le (h : Steady R T p) : p.place ≤ T.last := h.on.le

theorem Steady.still (h : Steady R T p) : Still R T p p :=
  ⟨h.toReady, h.on, rfl, rfl, rfl, rfl, rfl, rfl, #[], by simp⟩

namespace Shift

theorem place (h : Shift R T i p p') : p'.place = i := place_of_on h.on

theorem callers (h : Shift R T i p p') : p'.callers = p.callers := by
  rw [Parser.callers, h.stack, Parser.callers]

theorem steady (h : Shift R T i p p') (hg : Steady R T p) : Steady R T p' :=
  ⟨h.ready, by rw [h.place]; exact h.on, by rw [h.callers]; exact hg.invoked⟩

theorem good (h : Shift R T i p p') (hg : Good R T p) : Good R T p' := by
  refine ⟨h.steady hg.toSteady, fun hr he => ?_⟩
  obtain ⟨rs, hrs, _⟩ := h.reports
  rw [hrs, Array.append_eq_empty_iff] at he
  exact hg.recovering (h.recovering ▸ hr) he.1

theorem trans (h : Shift R T i p p') (h' : Shift R T j p' p'') : Shift R T j p p'' := by
  obtain ⟨rs, hrs, hsilent⟩ := h.reports
  obtain ⟨rs', hrs', hsilent'⟩ := h'.reports
  refine ⟨h'.ready, h'.on, h'.stack.trans h.stack, h'.state.trans h.state,
    h'.precedences.trans h.precedences, h'.recovering.trans h.recovering,
    h'.lastErrorIndex.trans h.lastErrorIndex, h'.lastErrorStates.trans h.lastErrorStates,
    rs ++ rs', ?_, ?_⟩
  · rw [hrs', hrs, Array.append_assoc]
  · intro hs
    rw [hsilent hs, hsilent' hs, Array.append_empty]

theorem still (h : Still R T p p') (h' : Still R T p' p'') : Still R T p p'' := by
  have := h.trans h'
  rwa [h.place] at this

theorem silent (h : Shift R T i p p') (hs : T.silent = true) :
    p'.core.reports = p.core.reports := by
  obtain ⟨rs, hrs, hsilent⟩ := h.reports
  rw [hrs, hsilent hs, Array.append_empty]

end Shift

/-! Looking at the tokens. -/

theorem collect_eq (r : Recognizer) (h : On T i r.stream) :
    ∃ s rs tr, r.collect = { r with stream := s, reports := r.reports ++ rs, trace := tr } ∧
      On T i s ∧ (T.silent = true → rs = #[]) := by
  unfold Recognizer.collect
  cases hs : r.stream.source with
  | list l => exact ⟨r.stream, #[], r.trace, by simp, h, fun _ => rfl⟩
  | lexer l =>
    dsimp only
    split
    · exact ⟨r.stream, #[], r.trace, by simp, h, fun _ => rfl⟩
    · obtain ⟨P, hP, hfeeds⟩ := h.feeds
      refine ⟨_, l.reports, _, rfl, ?_, fun hsilent => hP.quiet hsilent (hs ▸ hfeeds)⟩
      exact ⟨⟨h.channel, h.tokens, h.size, h.fetchedEof, P, hP, hP.cleared (hs ▸ hfeeds)⟩, h.index,
        h.read, h.visible⟩

theorem onStream_ok {α : Type} {m : StreamM α} (hc : p.core.connected = true) {a : α}
    {s : TokenStream} (hm : m p.core.stream = .ok a s) (hon : On T i s) :
    ∃ s rs tr, onStream m p = .ok a { p with
        core := { p.core with stream := s, reports := p.core.reports ++ rs, trace := tr } } ∧
      On T i s ∧ (T.silent = true → rs = #[]) := by
  obtain ⟨s', rs, tr, hcollect, hon', hsilent⟩ := collect_eq { p.core with stream := s } hon
  refine ⟨s', rs, tr, ?_, hon', hsilent⟩
  dsimp only at hcollect
  unfold onStream onCore Recognizer.onStream
  rw [if_pos hc, hm]
  dsimp only
  rw [hcollect]

theorem Ready.observe (h : Ready R p) (s : TokenStream) (rs : Array Report) (tr : Array String)
    {looks : LookTable} (hnamed : looks.Named) :
    Ready R { p with core := { p.core with
      stream := s, reports := p.core.reports ++ rs, trace := tr, looks } } :=
  { h with looks := hnamed }

theorem Steady.reads (h : Steady R T p) {α : Type} {m : StreamM α} {a : α} {s : TokenStream}
    (hm : m p.core.stream = .ok a s) (hon : On T i s) :
    ∃ p', onStream m p = .ok a p' ∧ Shift R T i p p' := by
  obtain ⟨s', rs, tr, hrun, hon', hsilent⟩ := onStream_ok h.connected hm hon
  exact ⟨_, hrun, h.toReady.observe _ _ _ h.looks, hon', rfl, rfl, rfl, rfl, rfl, rfl, rs, rfl, hsilent⟩

theorem Steady.current (h : Steady R T p) : ∃ p', current p = .ok (T.token p.place) p' ∧ Still R T p p' :=
  h.reads h.on.current h.on

theorem Steady.symbol_one (h : Steady R T p) :
    ∃ p', symbol 1 p = .ok (T.token p.place).type p' ∧ Still R T p p' :=
  h.reads h.on.symbol_one h.on

theorem Steady.symbol_two (h : Steady R T p) :
    ∃ p', symbol 2 p = .ok (T.token (T.seek (p.place + 1))).type p' ∧ Still R T p p' := by
  obtain ⟨s, hm, hon⟩ := h.on.symbol_two
  exact h.reads hm hon

theorem Steady.lookAhead_one (h : Steady R T p) :
    ∃ p', onStream (TokenStream.lookAhead 1) p = .ok (some (T.token p.place)) p' ∧ Still R T p p' :=
  h.reads h.on.lookAhead_one h.on

theorem Steady.lookAhead_back (h : Steady R T p) :
    ∃ t p', onStream (TokenStream.lookAhead (-1)) p = .ok t p' ∧ Still R T p p' := by
  obtain ⟨t, hm⟩ := h.on.lookAhead_back
  obtain ⟨p', hrun, hstill⟩ := h.reads hm h.on
  exact ⟨t, p', hrun, hstill⟩

/-! Looking up what can come next. -/

theorem network_eq (h : p.core.spec = Grammar.parserSpec) :
    p.core.spec.network = Grammar.parserNetwork := by
  rw [h, Grammar.parserSpec_network]

theorem Steady.onLooks_ok (h : Steady R T p) {α : Type} {m : Network → EStateM Fault LookTable α} {a : α}
    {table : LookTable} (hm : m Grammar.parserNetwork p.core.looks = .ok a table)
    (hnamed : table.Named) : ∃ p', onLooks m p = .ok a p' ∧ Still R T p p' := by
  refine ⟨{ p with core := { p.core with looks := table } }, ?_, ?_⟩
  · unfold onLooks
    rw [network_eq h.spec, hm]
  · have hready := h.toReady.observe p.core.stream #[] p.core.trace hnamed
    rw [Array.append_empty] at hready
    exact ⟨hready, h.on, rfl, rfl, rfl, rfl, rfl, rfl, #[], by simp⟩

theorem Steady.next (h : Steady R T p) {n : Nat} (hn : n < Grammar.parserNetwork.states.size) :
    ∃ s p', onLooks (fun net => LookTable.next net n) p = .ok s p' ∧ Still R T p p' ∧ s.Named := by
  obtain ⟨s, table, hm, hs, hnamed⟩ := LookTable.next_ok Grammar.parserNetwork_formed.1
    Grammar.parserNetwork_formed.2.1 hn h.looks
  obtain ⟨p', hrun, hstill⟩ := h.onLooks_ok (m := fun net => LookTable.next net n) hm hnamed
  exact ⟨s, p', hrun, hstill, hs⟩

theorem toNat_lt_size {n : Int} (hn : Part.isState 160 n = true) : n.toNat < Grammar.parserNetwork.states.size := by
  simp only [Part.isState, Bool.and_eq_true, decide_eq_true_eq] at hn
  rw [Grammar.parserNetwork_size]
  omega

theorem Steady.expectedAt (h : Steady R T p) {n : Int} {cs : List Int} (hn : Part.isState 160 n = true)
    (hcs : Invoked Grammar.parserNetwork cs) :
    ∃ s k p', onLooks (fun net => LookTable.expected net n cs) p = .ok (s, k) p' ∧ Still R T p p' ∧
      s.Named := by
  have hlt := toNat_lt_size hn
  simp only [Part.isState, Bool.and_eq_true, decide_eq_true_eq] at hn
  obtain ⟨s, k, table, hm, hs, hnamed⟩ := LookTable.expected_ok
    Grammar.parserNetwork_formed.1 Grammar.parserNetwork_formed.2.1 hlt hcs h.looks
  rw [Int.toNat_of_nonneg hn.1] at hm
  obtain ⟨p', hrun, hstill⟩ := h.onLooks_ok (m := fun net => LookTable.expected net n cs) hm hnamed
  exact ⟨s, k, p', hrun, hstill, hs⟩

theorem Steady.isState (h : Steady R T p) : Part.isState 160 p.core.state = true :=
  h.state h.stack_ne_nil

theorem Steady.expectedFrom (h : Steady R T p) :
    ∃ s k p', expectedFrom p = .ok (s, k) p' ∧ Still R T p p' ∧ s.Named :=
  h.expectedAt h.isState h.invoked

theorem Steady.expected (h : Steady R T p) :
    ∃ s p', expected p = .ok s p' ∧ Still R T p p' ∧ s.Named := by
  obtain ⟨s, k, p', hrun, hstill, hs⟩ := h.expectedFrom
  exact ⟨s, p', by rw [Parser.expected, Run.bind_ok hrun]; rfl, hstill, hs⟩

theorem showSymbols_ok (p : Parser) {s : SymbolSet} (hs : s.Named) :
    ∃ text, showSymbols s p = .ok text p := by
  obtain ⟨text, htext⟩ := hs.display p.core.spec.vocabulary
  exact ⟨text, by rw [Parser.showSymbols, Run.get_bind, htext]; rfl⟩

theorem stateAt_eq {n : Int} (hn : Part.isState 160 n = true) :
    Grammar.parserNetwork.stateAt n = .ok n.toNat := by
  simp only [Part.isState, Bool.and_eq_true, decide_eq_true_eq] at hn
  exact Lookahead.stateAt_eq hn.1 (by rw [Grammar.parserNetwork_size]; omega)

end Parser

end Throbac
