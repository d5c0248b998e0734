import Throbac.Proofs.Lookahead.Exact

/-!
# The table of what can come next

A parser remembers what it has found for a state. What the table answers does not change as it grows,
and a set that is collected under the rules in progress has what one of the answers has.
-/
namespace Throbac

namespace SymbolSet

variable {s t : SymbolSet} {x : Int}

/-- The set has nothing below the mark for the end of a rule. -/
def Named (s : SymbolSet) : Prop := ∀ i ∈ s.parts, Symbol.epsilon ≤ i.lo

theorem named_empty : Named {} := by simp [Named, parts]

theorem Named.le (h : s.Named) (hx : s.Contains x) : Symbol.epsilon ≤ x := by
  obtain ⟨i, hi, hlo, -⟩ := hx
  exact Int.le_trans (h i hi) hlo

theorem Named.insert (h : s.Named) {v : Interval} (hv : Symbol.epsilon ≤ v.lo) : (s.insert v).Named := by
  rw [Named, parts_insert]
  exact mem_insertInto_lo hv h

theorem Named.union (hs : s.Named) (ht : t.Named) : (s.union t).Named := by
  unfold SymbolSet.union
  unfold Named at ht
  generalize t.parts = is at ht
  induction is generalizing s with
  | nil => exact hs
  | cons v is ih =>
    obtain ⟨hv, his⟩ := List.forall_mem_cons.1 ht
    exact ih (hs.insert hv) his

theorem Named.eraseOne (h : s.Named) (k : Int) : (s.eraseOne k).Named := by
  rw [Named, parts_eraseOne]
  exact mem_eraseFrom_lo h

theorem Named.display (h : s.Named) (v : Vocabulary) :
    ∃ text, s.display v = .ok text := by
  have hall : ∀ x ∈ s.toList, Symbol.epsilon ≤ x :=
    fun _ hx => h.le (mem_toList.1 hx)
  have hnames : ∃ names, s.toList.mapM v.display = .ok names := by
    generalize s.toList = xs at hall
    induction xs with
    | nil => exact ⟨[], rfl⟩
    | cons x xs ih =>
      obtain ⟨text, htext⟩ := display_ok v (hall x List.mem_cons_self)
      obtain ⟨names, hnames⟩ := ih fun y hy => hall y (List.mem_cons_of_mem x hy)
      exact ⟨text :: names, by rw [List.mapM_cons, htext, hnames]; rfl⟩
  obtain ⟨names, hnames⟩ := hnames
  unfold SymbolSet.display
  split
  · exact ⟨_, rfl⟩
  · rw [hnames]
    exact ⟨_, rfl⟩

end SymbolSet

theorem Invoked.returns {net : Network} {cs : List Int} (h : Invoked net cs) :
    ∃ γ, Returns net cs γ ∧ ∀ c, cs.getLast? = some c → c < 0 := by
  induction h with
  | outermost hneg => exact ⟨[], .outermost _, by rintro c ⟨⟩; exact hneg⟩
  | @call n follow rule precedence cs hn hfollow hcall hrest ih =>
    obtain ⟨γ, hγ, hlast⟩ := ih
    obtain ⟨c, cs, rfl⟩ := List.exists_cons_of_ne_nil hrest.ne_nil
    exact ⟨follow :: γ, .call hn hfollow hcall hγ, by rwa [List.getLast?_cons_cons]⟩

namespace LookTable

variable {net : Network} {table : LookTable} {n : Nat} {γ : List Nat} {cs : List Int} {x : Int}

/-- The intervals of every set in the table are in order and apart. -/
def Apart (table : LookTable) : Prop := ∀ e ∈ table, SymbolSet.Apart e.2.parts

/-- What the table answers for a state, now or once it is asked. -/
def answer (net : Network) (table : LookTable) (n : Nat) : SymbolSet :=
  match table.find? (·.1 == n) with
  | some e => e.2
  | none => ((net.look n none none).toOption).getD {}

/-- What may come behind the first of several rules in progress, by the sets at their return states:
each rule must be one that can be left. -/
def Behind (answer : Nat → SymbolSet) (x : Int) : SymbolSet → List Nat → Prop
  | s, [] => s.Contains Symbol.epsilon ∧ x = Symbol.eof
  | s, r :: γ => s.Contains Symbol.epsilon ∧ ((answer r).Contains x ∨ Behind answer x (answer r) γ)

theorem contains_finish {following expected : SymbolSet} (he : SymbolSet.Apart expected.parts) :
    (widen.finish following expected).Contains x ↔
      expected.Contains x ∨ following.Contains Symbol.epsilon ∧ x = Symbol.eof := by
  unfold widen.finish
  split
  · next heps => rw [SymbolSet.contains_insertOne he, or_comm, and_iff_right (SymbolSet.contains_iff.1 heps)]
  · next heps => rw [iff_self_or]; exact fun h => absurd (SymbolSet.contains_iff.2 h.1) heps

/-- What is collected behind the rules in progress, as long as they can be left. -/
def widened (answer : Nat → SymbolSet) : SymbolSet → SymbolSet → List Nat → SymbolSet
  | following, expected, [] => widen.finish following expected
  | following, expected, r :: γ =>
    if following.contains Symbol.epsilon then
      widened answer (answer r) ((expected.union (answer r)).eraseOne Symbol.epsilon) γ
    else widen.finish following expected

def collected (answer : Nat → SymbolSet) (n : Nat) (γ : List Nat) : SymbolSet :=
  if (answer n).contains Symbol.epsilon then
    widened answer (answer n) ((SymbolSet.empty.union (answer n)).eraseOne Symbol.epsilon) γ
  else answer n

section

variable {answer : Nat → SymbolSet} {following expected : SymbolSet}

theorem contains_widened (ha : ∀ r ∈ γ, SymbolSet.Apart (answer r).parts)
    (he : SymbolSet.Apart expected.parts) (hx : x ≠ Symbol.epsilon) :
    (widened answer following expected γ).Contains x ↔ expected.Contains x ∨ Behind answer x following γ := by
  induction γ generalizing following expected with
  | nil => exact contains_finish he
  | cons r γ ih =>
    obtain ⟨hr, ha⟩ := List.forall_mem_cons.1 ha
    obtain ⟨hunion, hmem⟩ := SymbolSet.apart_union he hr.nonempty
    rw [widened, Behind]
    split
    · next heps =>
      rw [ih ha (hunion.eraseOne _), SymbolSet.contains_eraseOne hunion, hmem, and_iff_left hx, or_assoc,
        and_iff_right (SymbolSet.contains_iff.1 heps)]
    · next heps => simp [contains_finish he, mt SymbolSet.contains_iff.2 heps]

theorem named_widened (ha : ∀ r ∈ γ, (answer r).Named) (he : expected.Named) :
    (widened answer following expected γ).Named := by
  have hfinish : ∀ {f s : SymbolSet}, s.Named → (widen.finish f s).Named := by
    intro f s hs
    unfold widen.finish
    split
    · exact hs.insert (by decide)
    · exact hs
  induction γ generalizing following expected with
  | nil => exact hfinish he
  | cons r γ ih =>
    obtain ⟨hr, ha⟩ := List.forall_mem_cons.1 ha
    rw [widened]
    split
    · exact ih ha ((he.union hr).eraseOne _)
    · exact hfinish he

end

/-- The table has grown: it answers as before, and what was added was found by a search. -/
structure Grown (net : Network) (table table' : LookTable) : Prop where
  answer : answer net table' = answer net table
  found : ∀ e ∈ table', e ∈ table ∨ e.1 < net.states.size ∧ net.look e.1 none none = .ok e.2

namespace Grown

variable {table' table'' : LookTable}

theorem refl : Grown net table table := ⟨rfl, fun _ he => .inl he⟩

theorem trans (h : Grown net table table') (h' : Grown net table' table'') : Grown net table table'' :=
  ⟨h'.answer.trans h.answer, fun e he => (h'.found e he).elim (h.found e) .inr⟩

theorem all {P : SymbolSet → Prop} (h : Grown net table table')
    (hlook : ∀ n, n < net.states.size → ∃ s, net.look n none none = .ok s ∧ P s) (ht : ∀ e ∈ table, P e.2) :
    ∀ e ∈ table', P e.2 := by
  intro e he
  rcases h.found e he with he | ⟨hn, heq⟩
  · exact ht e he
  · obtain ⟨s, hs, hP⟩ := hlook e.1 hn
    cases heq.symm.trans hs
    exact hP

end Grown

theorem next_answer (hlook : ∃ s, net.look n none none = .ok s) (hn : n < net.states.size) :
    ∃ table', next net n table = .ok (answer net table n) table' ∧ Grown net table table' := by
  rw [next, Run.get_bind]
  cases hfind : table.find? (·.1 == n) with
  | some e =>
    have hanswer : answer net table n = e.2 := by rw [answer, hfind]
    exact ⟨table, by rw [hanswer]; rfl, .refl⟩
  | none =>
    obtain ⟨s, hs⟩ := hlook
    have hanswer : answer net table n = s := by rw [answer, hfind, hs]; rfl
    refine ⟨(n, s) :: table, by rw [hs, hanswer]; rfl, funext fun m => ?_, fun e he => ?_⟩
    · by_cases hm : n = m
      · subst hm
        rw [hanswer, answer, List.find?_cons_of_pos (by simp)]
      · rw [answer, List.find?_cons_of_neg (by simpa using hm), answer]
    · rcases List.mem_cons.1 he with rfl | he
      · exact .inr ⟨hn, hs⟩
      · exact .inl he

theorem answer_of_all {P : SymbolSet → Prop} (hlook : ∃ s, net.look n none none = .ok s ∧ P s)
    (ht : ∀ e ∈ table, P e.2) : P (answer net table n) := by
  unfold answer
  cases hfind : table.find? (·.1 == n) with
  | some e => exact ht e (List.mem_of_find?_eq_some hfind)
  | none =>
    obtain ⟨s, hs, hP⟩ := hlook
    rw [hs]
    exact hP

theorem look_answer (hlook : ∃ s, net.look n none none = .ok s) (ht : table.Exact net) :
    net.look n none none = .ok (answer net table n) := by
  obtain ⟨s, hs⟩ := hlook
  rw [answer]
  cases hfind : table.find? (·.1 == n) with
  | none => rw [hs]; rfl
  | some e =>
    have hkey : e.1 = n := by simpa using List.find?_some hfind
    exact hkey ▸ ht e (List.mem_of_find?_eq_some hfind)

section

variable (hf : net.Formed) (hfits : net.Fits)
include hf hfits

theorem look_apart (n : Nat) (hn : n < net.states.size) :
    ∃ s, net.look n none none = .ok s ∧ SymbolSet.Apart s.parts := by
  obtain ⟨s, hs, hapart, -⟩ := Network.look_alone hf hfits hn
  exact ⟨s, hs, hapart⟩

theorem next_apart (ht : table.Apart) (hn : n < net.states.size) :
    SymbolSet.Apart (answer net table n).parts ∧ ∃ table', next net n table = .ok (answer net table n) table' ∧
      table'.Apart ∧ Grown net table table' := by
  have hlook := look_apart hf hfits
  obtain ⟨table', hnext, hgrown⟩ := next_answer ((hlook n hn).imp fun _ => And.left) hn
  exact ⟨answer_of_all (P := fun s => SymbolSet.Apart s.parts) (hlook n hn) ht, table', hnext,
    hgrown.all (P := fun s => SymbolSet.Apart s.parts) hlook ht, hgrown⟩

theorem look_some (hn : n < net.states.size) : ∃ s, net.look n none none = .ok s :=
  (look_apart hf hfits n hn).imp fun _ => And.left

theorem widen_run (table : LookTable) (hcs : Returns net cs γ)
    (hlast : ∀ c, cs.getLast? = some c → c < 0) (following expected : SymbolSet) : ∃ table', widen net following expected cs table =
      .ok (widened (answer net table) following expected γ) table' ∧ Grown net table table' := by
  induction hcs generalizing following expected table with
  | outermost c =>
    have hneg := hlast c rfl
    exact ⟨table, by rw [widen, if_neg (by omega)]; rfl, .refl⟩
  | @call m r rule precedence cs γ hm hr hcall hrest ih =>
    obtain ⟨c, cs, rfl⟩ := List.exists_cons_of_ne_nil hrest.lt_size.2.2
    rw [List.getLast?_cons_cons] at hlast
    rw [widen, widened]
    by_cases heps : following.contains Symbol.epsilon = true
    · obtain ⟨table', hnext, hgrown⟩ := next_answer (look_some hf hfits hr) hr
      obtain ⟨table'', hrun, hgrown'⟩ := ih table' hlast (answer net table r) _
      rw [hgrown.answer] at hrun
      refine ⟨table'', ?_, hgrown.trans hgrown'⟩
      rw [if_pos ⟨by omega, heps⟩, if_pos heps, Lookahead.stateAt_natCast hm, Run.ofExcept_ok_bind,
        Invoked.followOf hcall, Run.ofExcept_ok_bind, Run.bind_ok hnext]
      exact hrun
    · exact ⟨table, by rw [if_neg fun h => heps h.2, if_neg heps]; rfl, .refl⟩

theorem expected_run (table : LookTable) (hn : n < net.states.size) (hcs : Returns net cs γ)
    (hlast : ∀ c, cs.getLast? = some c → c < 0) : ∃ known table', expected net n cs table =
      .ok (collected (answer net table) n γ, known) table' ∧ Grown net table table' := by
  obtain ⟨table', hnext, hgrown⟩ := next_answer (look_some hf hfits hn) hn
  rw [expected, if_neg (by omega), Int.toNat_natCast]
  dsimp only
  rw [Run.bind_ok hnext, collected]
  by_cases heps : (answer net table n).contains Symbol.epsilon = true
  · obtain ⟨table'', hrun, hgrown'⟩ := widen_run hf hfits table' hcs hlast (answer net table n) _
    rw [hgrown.answer] at hrun
    refine ⟨none, table'', ?_, hgrown.trans hgrown'⟩
    rw [if_neg (by simpa using heps), if_pos heps]
    exact Run.bind_ok hrun
  · refine ⟨some n, table', ?_, hgrown⟩
    rw [if_pos (by simpa using heps), if_neg heps]
    rfl

theorem contains_collected (hn : n < net.states.size) (hγ : ∀ r ∈ γ, r < net.states.size) (ht : table.Apart)
    (hx : x ≠ Symbol.epsilon) : (collected (answer net table) n γ).Contains x ↔
      (answer net table n).Contains x ∨ Behind (answer net table) x (answer net table n) γ := by
  have hanswer : ∀ r, r < net.states.size → SymbolSet.Apart (answer net table r).parts :=
    fun r hr => (next_apart hf hfits ht hr).1
  rw [collected]
  split
  · obtain ⟨hunion, hmem⟩ := SymbolSet.apart_union (s := .empty) SymbolSet.apart_nil (hanswer n hn).nonempty
    have hnone : ¬ SymbolSet.empty.Contains x := by rintro ⟨v, hv, -⟩; cases hv
    rw [contains_widened (fun r hr => hanswer r (hγ r hr)) (hunion.eraseOne _) hx,
      SymbolSet.contains_eraseOne hunion, hmem, or_iff_right hnone, and_iff_left hx]
  · next heps => cases γ <;> simp [Behind, ← SymbolSet.contains_iff (x := Symbol.epsilon), heps]

/-! ## Names -/

def Named (table : LookTable) : Prop := ∀ e ∈ table, e.2.Named

theorem look_named (n : Nat) (hn : n < net.states.size) : ∃ s, net.look n none none = .ok s ∧ s.Named := by
  obtain ⟨s, hs, hapart, hsound, -⟩ := Network.look_alone hf hfits hn
  refine ⟨s, hs, fun i hi => ?_⟩
  rcases hsound i.lo ⟨i, hi, Int.le_refl _, hapart.nonempty i hi⟩ with hmeets | ⟨heq, -⟩
  · exact Int.le_trans (by decide) (hf.eof_le hmeets)
  · exact Int.le_of_eq heq.symm

theorem next_ok (hn : n < net.states.size) (ht : table.Named) :
    ∃ s table', next net n table = .ok s table' ∧ s.Named ∧ table'.Named := by
  have hlook := look_named hf hfits
  obtain ⟨table', hnext, hgrown⟩ := next_answer (look_some hf hfits hn) hn
  exact ⟨_, table', hnext, answer_of_all (hlook n hn) ht, hgrown.all hlook ht⟩

theorem expected_ok (hn : n < net.states.size) (hcs : Invoked net cs) (ht : table.Named) :
    ∃ s k table', expected net n cs table = .ok (s, k) table' ∧ s.Named ∧ table'.Named := by
  have hlook := look_named hf hfits
  obtain ⟨γ, hγ, hlast⟩ := hcs.returns
  obtain ⟨k, table', hrun, hgrown⟩ := expected_run hf hfits table hn hγ hlast
  refine ⟨_, k, table', hrun, ?_, hgrown.all hlook ht⟩
  have hanswer : ∀ r, r < net.states.size → (answer net table r).Named := fun r hr => answer_of_all (hlook r hr) ht
  rw [collected]
  split
  · exact named_widened (fun r hr => hanswer r (hγ.lt_size.1 r hr))
      ((SymbolSet.named_empty.union (hanswer n hn)).eraseOne _)
  · exact hanswer n hn

end

end LookTable

end Throbac
