import Throbac.Lookahead
import Throbac.Proofs.Run

/-!
# One symbol of lookahead

What a search for the symbols that can come next is given: states by their numbers, the rules in
progress, and a table of what was found before. Symbols from the marks on can be shown.
-/
namespace Throbac

namespace SymbolSet

theorem display_ok (v : Vocabulary) {x : Int} (hx : Symbol.epsilon ≤ x) :
    ∃ text, v.display x = .ok text := by
  have hget : ∀ names : Array String, 0 ≤ x → x < names.size →
      ∃ text, Sequence.arrayAt names x = .ok text := by
    intro names h0 h
    obtain ⟨k, rfl⟩ := Int.eq_ofNat_of_zero_le h0
    have hlt : k < names.size := by omega
    exact ⟨names[k], by simp [Sequence.arrayAt, Sequence.arrayAt?, Sequence.resolve?_natCast hlt, hlt]⟩
  unfold Vocabulary.display
  by_cases heof : x = Symbol.eof
  · exact ⟨_, by rw [if_pos heof]; rfl⟩
  by_cases heps : x = Symbol.epsilon
  · exact ⟨_, by rw [if_neg heof, if_pos heps]; rfl⟩
  have h0 : 0 ≤ x := by
    rw [Symbol.epsilon] at hx heps
    rw [Symbol.eof] at heof
    omega
  have hsymbolic : ∃ text, (if x < v.symbolic.size then Sequence.arrayAt v.symbolic x
      else (pure "<UNKNOWN>" : Except Fault String)) = .ok text := by
    split
    · next hlt => exact hget _ h0 hlt
    · exact ⟨_, rfl⟩
  rw [if_neg heof, if_neg heps]
  by_cases hlit : x < v.literal.size
  · obtain ⟨name, hname⟩ := hget _ h0 hlit
    rw [if_pos hlit, hname]
    by_cases hun : name ≠ Vocabulary.unnamed
    · exact ⟨name, by simp only [bind, Except.bind, if_pos hun]; rfl⟩
    · simpa only [bind, Except.bind, if_neg hun] using hsymbolic
  · rw [if_neg hlit]
    exact hsymbolic

end SymbolSet

namespace Lookahead

variable {net : Network}

theorem stateAt_natCast {n : Nat} (h : n < net.states.size) : net.stateAt n = .ok n := by
  simp [Network.stateAt, Sequence.resolve?_natCast h]

theorem stateAt_eq {r : Int} (h0 : 0 ≤ r) (h : r < net.states.size) :
    net.stateAt r = .ok r.toNat := by
  obtain ⟨k, rfl⟩ := Int.eq_ofNat_of_zero_le h0
  exact stateAt_natCast (by omega)

end Lookahead

/-- The invoking states of rules in progress, innermost first: each but the outermost is a state that
calls a rule. -/
inductive Invoked (net : Network) : List Int → Prop
  | outermost {c : Int} : c < 0 → Invoked net [c]
  | call {n follow : Nat} {rule precedence : Int} {cs : List Int} : n < net.states.size →
    follow < net.states.size →
    (net.edges n)[0]?.map Edge.label = some (.call rule precedence follow) →
    Invoked net cs → Invoked net ((n : Int) :: cs)

namespace Invoked

variable {net : Network} {cs : List Int}

theorem ne_nil (h : Invoked net cs) : cs ≠ [] := by cases h <;> simp

theorem followOf {n follow : Nat} {rule precedence : Int}
    (h : (net.edges n)[0]?.map Edge.label = some (.call rule precedence follow)) :
    net.followOf n = .ok follow := by
  simp [Network.followOf, h]

end Invoked

/-- The table holds for each of its states just what can come next within the rule. -/
def LookTable.Exact (net : Network) (table : LookTable) : Prop :=
  ∀ e ∈ table, net.look e.1 none none = .ok e.2

end Throbac
