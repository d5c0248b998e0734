import Throbac.Network.Basic

/-!
# Shelves

A list laid out as a binary tree, in which an item is found by the binary digits of its position.
Looking up a state of a large network takes a few steps instead of hundreds, so that checks of whole
networks stay feasible.
-/
namespace Throbac

inductive Shelf (α : Type)
  | leaf (a : α)
  | node (even odd : Shelf α)

namespace Shelf

variable {α : Type}

def evens : List α → List α
  | a :: _ :: l => a :: evens l
  | l => l

def odds : List α → List α
  | _ :: b :: l => b :: odds l
  | _ => []

/-- Lays out a list on `2 ^ k` places; the default fills those left over. -/
def ofList (d : α) : Nat → List α → Shelf α
  | 0, l => leaf (l.headD d)
  | k + 1, l => node (ofList d k (evens l)) (ofList d k (odds l))

/-- The item at a position, the default behind the last place. -/
def get (d : α) : Shelf α → Nat → α
  | leaf a, n => if n = 0 then a else d
  | node even odd, n => if n % 2 = 0 then even.get d (n / 2) else odd.get d (n / 2)

theorem getD_evens (d : α) (l : List α) (n : Nat) : (evens l).getD n d = l.getD (2 * n) d := by
  induction l using evens.induct generalizing n with
  | case1 a b l ih =>
    cases n with
    | zero => rfl
    | succ n => simpa [evens, Nat.mul_add] using ih n
  | case2 l h =>
    rcases l with _ | ⟨a, _ | ⟨b, l⟩⟩
    · simp [evens]
    · cases n <;> simp [evens, Nat.mul_add]
    · exact absurd rfl (h a b l)

theorem getD_odds (d : α) (l : List α) (n : Nat) : (odds l).getD n d = l.getD (2 * n + 1) d := by
  induction l using odds.induct generalizing n with
  | case1 a b l ih =>
    cases n with
    | zero => rfl
    | succ n => simpa [odds, Nat.mul_add] using ih n
  | case2 l h =>
    rcases l with _ | ⟨a, _ | ⟨b, l⟩⟩
    · simp [odds]
    · simp [odds]
    · exact absurd rfl (h a b l)

theorem length_evens_odds (l : List α) :
    (evens l).length = (l.length + 1) / 2 ∧ (odds l).length = l.length / 2 := by
  induction l using evens.induct with
  | case1 a b l ih =>
    simp only [evens, odds, List.length_cons]
    omega
  | case2 l h =>
    rcases l with _ | ⟨a, _ | ⟨b, l⟩⟩
    · simp [evens, odds]
    · simp [evens, odds]
    · exact absurd rfl (h a b l)

theorem get_ofList (d : α) {k : Nat} {l : List α} (h : l.length ≤ Nat.pow 2 k) (n : Nat) :
    (ofList d k l).get d n = l.getD n d := by
  induction k generalizing l n with
  | zero =>
    rcases l with _ | ⟨a, _ | ⟨b, l⟩⟩
    · simp [ofList, get]
    · cases n <;> simp [ofList, get]
    · simp [Nat.pow] at h
  | succ k ih =>
    have hlen := length_evens_odds l
    have hpow : Nat.pow 2 (k + 1) = Nat.pow 2 k * 2 := rfl
    rw [ofList, get]
    split
    · rw [ih (by omega), getD_evens]
      congr 1
      omega
    · rw [ih (by omega), getD_odds]
      congr 1
      omega

end Shelf

/-- The states of a network of at most 512 states, laid out. -/
def Network.shelf (net : Network) : Shelf NetState := .ofList default 9 net.states.toList

theorem Network.get_shelf {net : Network} (h : net.states.size ≤ 512) :
    net.shelf.get default = net.state := by
  funext n
  rw [shelf, Shelf.get_ofList default (show net.states.toList.length ≤ 512 by simpa using h), state, Array.getD_eq_getD_getElem?,
    List.getD_eq_getElem?_getD, Array.getElem?_toList]

end Throbac
