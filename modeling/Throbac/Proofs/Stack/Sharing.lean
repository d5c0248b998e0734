import Throbac.Stack.Share
import Throbac.Proofs.Stack.Merging

/-!
# Sharing keeps a context

The shared copy of a context that is open at the bottom is the same context, whatever the cache holds.
-/
namespace Throbac

/-- Every context met during the pass stands for itself. -/
def Sharing.Faithful (s : Sharing) : Prop := ∀ e ∈ s.visited, e.1 = e.2

namespace StackContext

variable {size : Nat} {s : Sharing} {c : StackContext}

theorem known_ok (h : s.Faithful) (c : StackContext) :
    ∃ known s', Sharing.known c s = .ok known s' ∧ s'.Faithful ∧ ∀ d, known = some d → d = c := by
  unfold Sharing.known
  rw [Run.get_bind]
  cases hfind : s.visited.find? (·.1 = c) with
  | some e =>
    refine ⟨some e.2, s, rfl, h, ?_⟩
    intro d hd
    have hkey := List.find?_some hfind
    rw [decide_eq_true_eq] at hkey
    rw [← Option.some.inj hd, ← h e (List.mem_of_find?_eq_some hfind), hkey]
  | none =>
    dsimp only
    split
    · refine ⟨some c, _, rfl, ?_, fun d hd => (Option.some.inj hd).symm⟩
      intro e he
      rcases List.mem_cons.1 he with rfl | he
      · rfl
      · exact h e he
    · exact ⟨none, s, rfl, h, by simp⟩

theorem store_ok (h : s.Faithful) (c : StackContext) :
    ∃ s', Sharing.store c c s = .ok ⟨⟩ s' ∧ s'.Faithful := by
  refine ⟨_, rfl, ?_⟩
  intro e he
  simp only [List.mem_cons] at he
  rcases he with rfl | rfl | he
  · rfl
  · rfl
  · exact h e he

theorem ofShared_of_two {ps : List StackContext} {rs : List Int} (h : 2 ≤ ps.length) :
    ofShared ps rs = .array ps rs := by
  match ps, h with
  | _ :: _ :: _, _ => rfl

theorem shareAll_ok {ps : List StackContext} {rs : List Int} (hlength : ps.length = rs.length)
    (hshare : ∀ p ∈ ps, ∀ s : Sharing, s.Faithful →
      ∃ b s', share p s = .ok (p, b) s' ∧ s'.Faithful) (hs : s.Faithful) :
    ∃ b s', shareAll ps rs s = .ok (ps, b) s' ∧ s'.Faithful := by
  induction ps generalizing rs s with
  | nil =>
    obtain rfl : rs = [] := List.eq_nil_of_length_eq_zero hlength.symm
    exact ⟨false, s, by rw [shareAll.eq_def]; rfl, hs⟩
  | cons p ps ih =>
    cases rs with
    | nil => simp at hlength
    | cons r rs =>
      obtain ⟨b₁, s₁, hrun₁, hs₁⟩ := hshare p List.mem_cons_self s hs
      obtain ⟨b₂, s₂, hrun₂, hs₂⟩ := ih (by simpa using hlength)
        (fun p hp => hshare p (List.mem_cons_of_mem _ hp)) hs₁
      refine ⟨b₁ || b₂, s₂, ?_, hs₂⟩
      rw [shareAll, Run.bind_ok hrun₁]
      exact Run.bind_ok hrun₂

theorem share_ok (hsize : (size : Int) ≤ bottom) (hc : Proper size true c) (hs : s.Faithful) :
    ∃ b s', share c s = .ok (c, b) s' ∧ s'.Faithful := by
  induction hc generalizing s with
  | empty => exact ⟨false, s, by rw [share.eq_def]; rfl, hs⟩
  | @single p r hr hp ih =>
    obtain ⟨known, s₁, hknown, hs₁, hsame⟩ := known_ok hs (.single p r)
    rw [share.eq_def, show isEmpty (.single p r) = .ok false from rfl, Run.ofExcept_ok_bind,
      if_neg Bool.false_ne_true, Run.bind_ok hknown]
    cases known with
    | some d => exact ⟨true, s₁, by rw [hsame d rfl]; rfl, hs₁⟩
    | none =>
      obtain ⟨b, s₂, hrun, hs₂⟩ := ih hs₁
      obtain ⟨s₃, hstore, hs₃⟩ := store_ok hs₂ (.single p r)
      refine ⟨b, s₃, ?_, hs₃⟩
      dsimp only
      rw [Run.bind_ok hrun]
      dsimp only
      rw [hp.push_eq]
      exact Run.bind_ok hstore
  | @array ps rs hlength htwo hlined hgrown ih =>
    have htwo : 2 ≤ rs.length := htwo
    have hopen : ∀ f ∈ ps.zip rs, f.2 ≠ bottom := hlined.closed rfl
    have hempty : isEmpty (.array ps rs) = .ok false :=
      Proper.isEmpty_eq (.array hlength htwo hlined hgrown) hsize
    obtain ⟨known, s₁, hknown, hs₁, hsame⟩ := known_ok hs (.array ps rs)
    rw [share.eq_def, hempty, Run.ofExcept_ok_bind, if_neg Bool.false_ne_true, Run.bind_ok hknown]
    cases known with
    | some d => exact ⟨true, s₁, by rw [hsame d rfl]; rfl, hs₁⟩
    | none =>
      have hshare : ∀ p ∈ ps, ∀ s : Sharing, s.Faithful →
          ∃ b s', share p s = .ok (p, b) s' ∧ s'.Faithful := by
        intro p hp s hs
        obtain ⟨i, hi, rfl⟩ := List.mem_iff_getElem.1 hp
        have hmem : (ps[i], rs[i]) ∈ ps.zip rs := by
          rw [← List.getElem_zip]
          exact List.getElem_mem (by rw [List.length_zip]; omega)
        exact ih _ hmem (hopen _ hmem) hs
      obtain ⟨b, s₂, hrun, hs₂⟩ := shareAll_ok hlength hshare hs₁
      obtain ⟨s₃, hstore, hs₃⟩ := store_ok hs₂ (.array ps rs)
      have hshared : ofShared ps rs = .array ps rs := ofShared_of_two (by omega)
      refine ⟨b, s₃, ?_, hs₃⟩
      dsimp only
      rw [Run.bind_ok hrun]
      dsimp only
      rw [hshared, ite_self]
      exact Run.bind_ok hstore

end StackContext

end Throbac
