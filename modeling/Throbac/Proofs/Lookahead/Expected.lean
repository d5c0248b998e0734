import Throbac.Parsing.Parser
import Throbac.Proofs.Lookahead.Tables

/-!
# Two ways to ask what may come next

A parser can be asked for the set of the symbols that may come next, or whether a given symbol may.
Both go out along the rules in progress as long as each can be left before anything is read, one
collecting symbols, the other stopping at the first set that has the symbol. They agree, and where
lookahead is exact both tell what can be read first under the rules in progress.
-/
namespace Throbac

namespace Network

variable {net : Network} {n m r : Nat} {γ δ : List Nat} {x : Int}

/-! ## Runs along a stack -/

theorem Move.append {c d : Nat × List Nat} (h : net.Move (fun _ => True) c d) (γ : List Nat) :
    net.Move (fun _ => True) (c.1, c.2 ++ γ) (d.1, d.2 ++ γ) := by
  cases h with
  | slip hstop he hsilent hcall => exact .slip hstop he hsilent hcall trivial
  | call hstop he hcall => exact .call hstop he hcall
  | back hstop => exact .back hstop

theorem Glides.append {c d : Nat × List Nat} (h : net.Glides c d) (γ : List Nat) :
    net.Glides (c.1, c.2 ++ γ) (d.1, d.2 ++ γ) := by
  induction h with
  | refl => exact .refl
  | tail _ hmove ih => exact ih.tail (hmove.append γ)

theorem Glides.split (h : net.Glides (n, r :: γ) (m, δ)) :
    (∃ α, δ = α ++ r :: γ ∧ net.Glides (n, []) (m, α)) ∨ net.Ends (n, []) ∧ net.Glides (r, γ) (m, δ) := by
  generalize hd : (m, δ) = d at h
  induction h generalizing m δ with
  | refl =>
    cases hd
    exact .inl ⟨[], rfl, .refl⟩
  | @tail c d _ hmove ih =>
    subst hd
    rcases ih (m := c.1) (δ := c.2) rfl with ⟨α, hα, hrun⟩ | ⟨hend, hrun⟩
    · obtain ⟨k, σ⟩ := c
      obtain rfl : σ = α ++ r :: γ := hα
      generalize hσ : α ++ r :: γ = σ at hmove
      cases hmove with
      | slip hstop he hsilent hcall =>
        exact .inl ⟨α, hσ.symm, hrun.tail (.slip hstop he hsilent hcall trivial)⟩
      | call hstop he hcall =>
        exact .inl ⟨_ :: α, congrArg _ hσ.symm, hrun.tail (.call hstop he hcall)⟩
      | back hstop =>
        cases α with
        | nil =>
          cases hσ
          exact .inr ⟨⟨k, hrun, hstop⟩, .refl⟩
        | cons q α =>
          obtain ⟨rfl, rfl⟩ := List.cons.inj hσ
          exact .inl ⟨α, rfl, hrun.tail (.back hstop)⟩
    · exact .inr ⟨hend, hrun.tail hmove⟩

theorem Ends.leave (h : net.Ends (n, [])) : net.Glides (n, r :: γ) (r, γ) := by
  obtain ⟨m, hm, hstop⟩ := h
  exact (hm.append (r :: γ)).tail (.back hstop)

theorem meets_cons : net.Meets (n, r :: γ) x ↔
    net.Meets (n, []) x ∨ net.Ends (n, []) ∧ net.Meets (r, γ) x := by
  constructor
  · rintro ⟨⟨m, δ⟩, hrun, hread⟩
    rcases hrun.split with ⟨α, -, hrun⟩ | ⟨hend, hrun⟩
    · exact .inl ⟨(m, α), hrun, hread⟩
    · exact .inr ⟨hend, (m, δ), hrun, hread⟩
  · rintro (⟨d, hrun, hread⟩ | ⟨hend, d, hrun, hread⟩)
    · exact ⟨_, hrun.append (r :: γ), hread⟩
    · exact ⟨d, hend.leave.trans hrun, hread⟩

theorem ends_cons : net.Ends (n, r :: γ) ↔ net.Ends (n, []) ∧ net.Ends (r, γ) := by
  constructor
  · rintro ⟨m, hrun, hstop⟩
    rcases hrun.split with ⟨α, hα, -⟩ | ⟨hend, hrun⟩
    · simp at hα
    · exact ⟨hend, m, hrun, hstop⟩
  · rintro ⟨hend, m, hrun, hstop⟩
    exact ⟨m, hend.leave.trans hrun, hstop⟩

end Network

namespace LookTable

variable {net : Network} {table : LookTable} {n : Nat} {γ : List Nat} {x : Int}

theorem behind_iff (hf : net.Formed) (hfits : net.Fits) (hrec : net.NoLeftRecursion) (ht : table.Exact net)
    (hn : n < net.states.size) (hγ : ∀ r ∈ γ, r < net.states.size) (hx : x ≠ Symbol.epsilon) :
    (answer net table n).Contains x ∨ Behind (answer net table) x (answer net table n) γ ↔
      net.Meets (n, γ) x ∨ x = Symbol.eof ∧ net.Ends (n, γ) := by
  have hone : ∀ {n}, n < net.states.size → ((answer net table n).Contains x ↔ net.Meets (n, []) x) ∧
      ((answer net table n).Contains Symbol.epsilon ↔ net.Ends (n, [])) := by
    intro n hn
    obtain ⟨s, hs, hmeets, hends⟩ := Network.look_alone_iff hf hfits hrec hn
    have hanswer : answer net table n = s := Except.ok.inj ((look_answer ⟨s, hs⟩ ht).symm.trans hs)
    exact hanswer ▸ ⟨hmeets x hx, hends⟩
  induction γ generalizing n with
  | nil =>
    rw [Behind, (hone hn).1, (hone hn).2, and_comm]
  | cons r γ ih =>
    obtain ⟨hr, hγ⟩ := List.forall_mem_cons.1 hγ
    rw [Behind, iff_iff_eq.1 (ih hr hγ), (hone hn).1, (hone hn).2, Network.meets_cons, Network.ends_cons,
      and_or_left, or_assoc, and_left_comm]

end LookTable

namespace Parser

variable {net : Network} {table : LookTable} {p : Parser} {n : Nat} {γ : List Nat} {cs : List Int} {x : Int}

theorem onLooks_next (hf : net.Formed) (hfits : net.Fits) (hn : n < net.states.size)
    (hnet : p.core.spec.network = net) (ht : p.core.looks.Apart) :
    ∃ p', onLooks (fun net => LookTable.next net n) p = .ok (LookTable.answer net p.core.looks n) p' ∧
      p'.core.spec = p.core.spec ∧ p'.callers = p.callers ∧ p'.core.looks.Apart ∧
      LookTable.answer net p'.core.looks = LookTable.answer net p.core.looks := by
  obtain ⟨-, table', hnext, ht', hgrown⟩ := LookTable.next_apart hf hfits ht hn
  exact ⟨{ p with core := { p.core with looks := table' } }, by rw [onLooks, hnet, hnext], rfl, rfl, ht', hgrown.answer⟩

theorem go_spec (hf : net.Formed) (hfits : net.Fits) (hcs : Returns net cs γ)
    (hlast : ∀ c, cs.getLast? = some c → c < 0) (hnet : p.core.spec.network = net) (ht : p.core.looks.Apart)
    (following : SymbolSet) :
    ∃ b p', isExpected.go x following cs p = .ok b p' ∧
      (b = true ↔ LookTable.Behind (LookTable.answer net p.core.looks) x following γ) := by
  induction hcs generalizing following p with
  | outermost c =>
    have hneg := hlast c rfl
    refine ⟨following.contains Symbol.epsilon && x == Symbol.eof, p, by rw [isExpected.go, if_neg (by omega)]; rfl, ?_⟩
    rw [LookTable.Behind, Bool.and_eq_true, SymbolSet.contains_iff, beq_iff_eq]
  | @call m r rule precedence cs γ hm hr hcall hrest ih =>
    obtain ⟨c, cs, rfl⟩ := List.exists_cons_of_ne_nil hrest.lt_size.2.2
    rw [List.getLast?_cons_cons] at hlast
    rw [isExpected.go, LookTable.Behind]
    by_cases heps : following.Contains Symbol.epsilon
    · obtain ⟨p', hnext, hspec, -, ht', hsame⟩ := onLooks_next hf hfits hr hnet ht
      rw [if_pos ⟨by omega, SymbolSet.contains_iff.2 heps⟩, Run.get_bind, hnet, Lookahead.stateAt_natCast hm, ofFault,
        pure_bind, Invoked.followOf hcall, ofFault, pure_bind, Run.bind_ok hnext]
      by_cases hx : (LookTable.answer net p.core.looks r).Contains x
      · exact ⟨true, p', by rw [if_pos (SymbolSet.contains_iff.2 hx)]; rfl, by simp [heps, hx]⟩
      · obtain ⟨b, p'', hrun, hb⟩ := ih hlast (hspec ▸ hnet) ht' (LookTable.answer net p.core.looks r)
        refine ⟨b, p'', by rw [if_neg fun h => hx (SymbolSet.contains_iff.1 h)]; exact hrun, ?_⟩
        rw [hb, hsame]
        simp [heps, hx]
    · have hno : following.contains Symbol.epsilon = false :=
        Bool.eq_false_iff.2 fun h => heps (SymbolSet.contains_iff.1 h)
      exact ⟨false, p, by rw [hno, if_neg (by simp)]; rfl, by simp [heps]⟩

theorem isExpected_spec (hf : net.Formed) (hfits : net.Fits) (hn : n < net.states.size)
    (hcs : Returns net p.callers.invocations γ) (hlast : ∀ c, p.callers.invocations.getLast? = some c → c < 0)
    (hnet : p.core.spec.network = net) (hstate : p.core.state = n) (ht : p.core.looks.Apart)
    {answer : Nat → SymbolSet} (hanswer : LookTable.answer net p.core.looks = answer) :
    ∃ b p', isExpected x p = .ok b p' ∧ (b = true ↔
      (answer n).Contains x ∨ LookTable.Behind answer x (answer n) γ) := by
  obtain ⟨p', hnext, hspec, hcallers, ht', hsame⟩ := onLooks_next hf hfits hn hnet ht
  rw [hanswer] at hnext hsame
  have hwithin : expectedWithin p = .ok (answer n) p' := by
    rw [expectedWithin, Run.get_bind, hnet, hstate, Lookahead.stateAt_natCast hn, ofFault, pure_bind]
    exact hnext
  rw [isExpected, Run.bind_ok hwithin]
  by_cases hx : (answer n).Contains x
  · exact ⟨true, p', by rw [if_pos (SymbolSet.contains_iff.2 hx)]; rfl, by simp [hx]⟩
  rw [if_neg fun h => hx (SymbolSet.contains_iff.1 h)]
  by_cases heps : (answer n).Contains Symbol.epsilon
  · obtain ⟨b, p'', hgo, hb⟩ := go_spec (x := x) hf hfits hcs hlast (hspec ▸ hnet) ht' (answer n)
    refine ⟨b, p'', ?_, by rw [hb, hsame, or_iff_right hx]⟩
    rw [if_neg (by simpa using SymbolSet.contains_iff.2 heps), Run.get_bind, hcallers]
    exact hgo
  · have hno : (answer n).contains Symbol.epsilon = false :=
      Bool.eq_false_iff.2 fun h => heps (SymbolSet.contains_iff.1 h)
    refine ⟨false, p', by rw [hno]; rfl, ?_⟩
    cases γ <;> simp [LookTable.Behind, heps, hx]

/-- Asking for one symbol and collecting all of them come to the same, whatever rules are in progress. Both answer
with what can be read first behind the state, where no rule can begin with itself. -/
theorem isExpected_iff_mem_expected (p : Parser) (n : Nat) (γ : List Nat) (x : Int)
    (hf : p.core.spec.network.Formed) (hfits : p.core.spec.network.Fits) (hn : n < p.core.spec.network.states.size)
    (hstate : p.core.state = n) (hcs : Returns p.core.spec.network p.callers.invocations γ)
    (hlast : p.callers.invocations.getLast? = some (-1)) (ht : p.core.looks.Apart) (hx : x ≠ Symbol.epsilon) :
    ∃ b p' s p'', isExpected x p = .ok b p' ∧ expected p = .ok s p'' ∧ (b = true ↔ s.Contains x) ∧
      (p.core.spec.network.NoLeftRecursion → p.core.looks.Exact p.core.spec.network →
        (s.Contains x ↔ p.core.spec.network.Meets (n, γ) x ∨ x = Symbol.eof ∧ p.core.spec.network.Ends (n, γ))) := by
  have hneg : ∀ c, p.callers.invocations.getLast? = some c → c < 0 := by
    rw [hlast]
    rintro c ⟨⟩
    decide
  obtain ⟨b, p', hb, hmem⟩ := isExpected_spec (x := x) hf hfits hn hcs hneg rfl hstate ht rfl
  obtain ⟨known, table', hs, -⟩ := LookTable.expected_run hf hfits p.core.looks hn hcs hneg
  have hexpected := LookTable.contains_collected hf hfits hn hcs.lt_size.1 ht hx
  refine ⟨b, p', _, { p with core := { p.core with looks := table' } }, hb, ?_, by rw [hmem, hexpected], ?_⟩
  · rw [expected, expectedFrom, bind_assoc, Run.get_bind, hstate, Run.bind_ok (by rw [onLooks, hs])]
    rfl
  · intro hrec hexact
    rw [hexpected, LookTable.behind_iff hf hfits hrec hexact hn hcs.lt_size.1 hx]

/-- A parser in the second of a pair of rules, called by the first. -/
def amidPair : Parser where
  core := { spec := { network := Network.pairOfRules }, stream := default, state := 4 }
  stack := [{ info := { kind := default, invoking := 2 } }, { info := { kind := default } }]

/-- What the first rule reads behind the second is expected there as well. -/
theorem isExpected_iff_mem_expected_amidPair :
    ∃ b p' s p'', isExpected 1 amidPair = .ok b p' ∧ expected amidPair = .ok s p'' ∧ (b = true ↔ s.Contains 1) ∧
      (s.Contains 1 ↔ Network.pairOfRules.Meets (4, [3]) 1 ∨
        (1 : Int) = Symbol.eof ∧ Network.pairOfRules.Ends (4, [3])) := by
  have hcs : Returns Network.pairOfRules [2, -1] [3] := .call (n := 2) (by decide) (by decide) rfl (.outermost (-1))
  obtain ⟨b, p', s, p'', hb, hs, hiff, hexact⟩ := isExpected_iff_mem_expected amidPair 4 [3] 1
    Network.pairOfRules_formed Network.pairOfRules_fits (by decide) rfl hcs rfl (by simp [LookTable.Apart, amidPair])
    (by decide)
  exact ⟨b, p', s, p'', hb, hs, hiff, hexact Network.pairOfRules_noLeftRecursion (by simp [LookTable.Exact, amidPair])⟩

end Parser

end Throbac
