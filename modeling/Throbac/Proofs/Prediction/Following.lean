import Throbac.Proofs.Parsing.Reports
import Throbac.Proofs.Prediction.Starting

/-!
# Following the input

What a recognizer does while it looks ahead: it moves over the tokens and back, asks the guards, and
gives up where no alternative is left. Nothing of this fails in another way than by an error that can
be reported.
-/
namespace Throbac

open StackContext (Proper Known)
open TokenStream (On)

namespace Prediction

/-- A recognizer with plain settings. -/
structure Apt (net : Network) (r : Recognizer) : Prop extends Calm net r where
  connected : r.connected = true
  mode : r.mode = .ll
  remarks : r.remarks = false
  diagnosis : r.diagnosis = none

/-- The recognizer has looked at the input and stands at a place; of its automata only the one of the
choice has changed, and that one has grown. -/
structure Roamed (net : Network) (q : Question) (T : Tape) (i : Nat) (r r' : Recognizer) : Prop where
  same : r' = { r with
    stream := r'.stream
    automata := r.automata.set! q.decision (autoOf q r')
    contexts := r'.contexts
    merges := r'.merges
    reports := r'.reports
    trace := r'.trace }
  on : On T i r'.stream
  equipped : Equipped net q r'
  grew : Grew (autoOf q r) (autoOf q r')
  begun : Begun (autoOf q r) → Begun (autoOf q r')
  reports : ∃ rs, r'.reports = r.reports ++ rs ∧ (T.silent = true → rs = #[])

variable {net : Network} {rank : Nat → Nat} {ends : Nat → Bool} {k n i j : Nat} {r r' r'' : Recognizer}
  {q : Question} {T : Tape} {full : Bool} {t : Int} {set : ConfigSet}

namespace Roamed

theorem refl (hq : Equipped net q r) (hon : On T i r.stream) : Roamed net q T i r r :=
  ⟨by rw [set_autoOf hq], hon, hq, .refl _, id, #[], by simp⟩

theorem trans (h : Roamed net q T i r r') (h' : Roamed net q T j r' r'') : Roamed net q T j r r'' := by
  obtain ⟨rs, hrs, hsilent⟩ := h.reports
  obtain ⟨rs', hrs', hsilent'⟩ := h'.reports
  refine ⟨?_, h'.on, h'.equipped, h.grew.trans h'.grew, fun hb => h'.begun (h.begun hb), rs ++ rs', ?_, ?_⟩
  · have hset : r'.automata.set! q.decision (autoOf q r'') = r.automata.set! q.decision (autoOf q r'') := by
      rw [h.same]
      simp
    have := h'.same
    rw [hset, h.same] at this
    exact this
  · rw [hrs', hrs, Array.append_assoc]
  · intro hs
    rw [hsilent hs, hsilent' hs, Array.append_empty]

theorem apt (h : Roamed net q T i r r') (hr : Apt net r) : Apt net r' := by
  rw [h.same]
  exact ⟨⟨hr.network, hr.watch, hr.decided⟩, hr.connected, hr.mode, hr.remarks, hr.diagnosis⟩

end Roamed

theorem Tuned.roamed (h : Tuned net q full r r') (hon : On T i r.stream) : Roamed net q T i r r' := by
  have hstream : r'.stream = r.stream := by rw [h.same]
  have hreports : r'.reports = r.reports := by rw [h.same]
  refine ⟨?_, hstream ▸ hon, h.equipped, h.grew, h.begun, #[], by simp [hreports]⟩
  have := h.same
  rw [hstream, hreports]
  exact this

theorem Searched.roamed (h : Searched net full r r') (hq : Equipped net q r) (hon : On T i r.stream) :
    Roamed net q T i r r' := (h.tuned hq).roamed hon

theorem onStream_roams {α : Type} {m : StreamM α} (hr : Apt net r) (hq : Equipped net q r) {a : α}
    {s : TokenStream} (hm : m r.stream = .ok a s) (hon : On T i s) :
    ∃ r', Recognizer.onStream m r = .ok a r' ∧ Roamed net q T i r r' ∧ r'.merges = r.merges := by
  obtain ⟨s', rs, tr, hcollect, hon', hsilent⟩ := Parser.collect_eq { r with stream := s } hon
  refine ⟨{ r with stream := s', reports := r.reports ++ rs, trace := tr }, ?_, ?_, rfl⟩
  · unfold Recognizer.onStream
    rw [if_pos hr.connected, hm]
    dsimp only
    rw [hcollect]
  · refine ⟨?_, hon', ⟨hq.lt, hq.cached⟩, .refl _, id, rs, rfl, hsilent⟩
    rw [show autoOf q { r with stream := s', reports := r.reports ++ rs, trace := tr } = autoOf q r from rfl,
      set_autoOf hq]

theorem Apt.note (h : Apt net r) {watched : Watch → Bool} (hw : watched {} = false) (line : RecM String) :
    Recognizer.note watched line r = .ok ⟨⟩ r := h.toCalm.note hw line

theorem Apt.remark (h : Apt net r) (report : Unit → Report) (exact : Bool) (message : RecM String) :
    Recognizer.remark report exact message r = .ok ⟨⟩ r := by
  rw [Recognizer.remark, Run.get_bind]
  dsimp only
  rw [h.remarks, h.diagnosis, if_neg Bool.false_ne_true]
  rfl

/-! ## Moving on -/

theorem step_ok (hr : Apt net r) (hq : Equipped net q r) (hon : On T i r.stream) (hi : i < T.last) :
    ∃ r', step (T.token i).type r = .ok (T.token (T.seek (i + 1))).type r' ∧
      Roamed net q T (T.seek (i + 1)) r r' ∧ r'.merges = r.merges := by
  have hne : ¬ (T.token i).type = Symbol.eof := fun h => by
    rw [Tape.type_eq_eof_iff (Nat.le_of_lt hi)] at h
    omega
  obtain ⟨s, hconsume, hon₁⟩ := hon.consume hi
  obtain ⟨r₁, hrun₁, hroam₁, hmerges₁⟩ := onStream_roams hr hq hconsume hon₁
  obtain ⟨r₂, hrun₂, hroam₂, hmerges₂⟩ :=
    onStream_roams (hroam₁.apt hr) hroam₁.equipped hroam₁.on.symbol_one hroam₁.on
  refine ⟨r₂, ?_, hroam₁.trans hroam₂, hmerges₂.trans hmerges₁⟩
  rw [step, if_neg hne, Run.bind_ok hrun₁, hrun₂]

theorem seek_ok (hr : Apt net r) (hq : Equipped net q r) (hon : On T j r.stream)
    (hvisible : Tape.visible (T.token i) = true) (hi : i ≤ T.last) :
    ∃ r', Recognizer.onStream (TokenStream.seek i) r = .ok ⟨⟩ r' ∧ Roamed net q T i r r' ∧
      r'.merges = r.merges := by
  obtain ⟨s, hseek, hon'⟩ := hon.seek i
  rw [Tape.seek_of_visible hi hvisible] at hon'
  exact onStream_roams hr hq hseek hon'

/-! ## Asking guards -/

theorem filterMapM_unchanged {α β σ ε : Type} {s : σ} {f : α → EStateM ε σ (Option β)} (l : List α)
    (h : ∀ x ∈ l, ∃ v, f x s = .ok v s) :
    ∃ ys, l.filterMapM f s = .ok ys s ∧ ∀ y, y ∈ ys ↔ ∃ x ∈ l, f x s = .ok (some y) s := by
  induction l with
  | nil => exact ⟨[], rfl, by simp⟩
  | cons x l ih =>
    obtain ⟨v, hv⟩ := h x List.mem_cons_self
    obtain ⟨ys, hys, hmem⟩ := ih fun y hy => h y (List.mem_cons_of_mem _ hy)
    rw [List.filterMapM_cons, Run.bind_ok hv]
    cases v with
    | none =>
      refine ⟨ys, hys, fun y => ?_⟩
      simp [hmem, hv]
    | some y =>
      refine ⟨y :: ys, Run.bind_ok hys, fun z => ?_⟩
      simp [hmem, hv, eq_comm]

theorem askGuard_ok (hr : Apt net r) (g : Option Guard) (alt : Int) (b : Bool) :
    ∃ v, askGuard (r.oracle b) g alt r = .ok v r ∧ (v = none ∨ v = some alt) := by
  match g with
  | none => exact ⟨some alt, rfl, .inr rfl⟩
  | some g =>
    by_cases halways : g = .always
    · subst halways
      exact ⟨some alt, rfl, .inr rfl⟩
    · obtain ⟨v, hv⟩ := Guard.eval_ok (hr.decided b) g
      refine ⟨if v.getD false then some alt else none, ?_, ?_⟩
      · have hrun : ∀ line, Recognizer.note (fun w => w.all || w.automata) line r = .ok ⟨⟩ r :=
          fun line => hr.note rfl line
        rw [askGuard]
        · rw [Run.bind_ok (Recognizer.ofFault_ok hv), Run.bind_ok (hrun _)]
          split
          · rw [Run.bind_ok (hrun _)]
            rfl
          · rfl
        · intro h
          exact halways h
      · split
        · exact .inr rfl
        · exact .inl rfl

theorem evalGuards_ok (hr : Apt net r) (gs : List (Option Guard × Int)) (b : Bool) :
    ∃ alts, evalGuards gs b r = .ok alts r ∧ ∀ i ∈ alts, ∃ p ∈ gs, p.2 = i := by
  obtain ⟨alts, hrun, hmem⟩ := filterMapM_unchanged gs
    (f := fun p : Option Guard × Int => askGuard (r.oracle b) p.1 p.2) fun p _ => by
      obtain ⟨v, hv, -⟩ := askGuard_ok hr p.1 p.2 b
      exact ⟨v, hv⟩
  refine ⟨ConfigSet.sorted alts, ?_, fun i hi => ?_⟩
  · rw [evalGuards, Run.get_bind]
    exact Run.bind_ok hrun
  · obtain ⟨p, hp, hask⟩ := (hmem i).1 (ConfigSet.mem_sorted.1 hi)
    obtain ⟨v, hv, hcase⟩ := askGuard_ok hr p.1 p.2 b
    obtain ⟨rfl, -⟩ := EStateM.Result.ok.inj (hv.symm.trans hask)
    rcases hcase with h | h
    · cases h
    · exact ⟨p, hp, (Option.some.inj h).symm⟩

/-! ## Giving up -/

theorem filterM_ok {α : Type} {f : α → Except Fault Bool} (l : List α) (h : ∀ x ∈ l, ∃ v, f x = .ok v) :
    ∃ ys, l.filterM f = .ok ys ∧ ∀ y ∈ ys, y ∈ l ∧ f y = .ok true := by
  have haux : ∀ (l acc : List α), (∀ x ∈ l, ∃ v, f x = .ok v) →
      ∃ ys, l.filterAuxM f acc = .ok ys ∧ ∀ y ∈ ys, y ∈ acc ∨ (y ∈ l ∧ f y = .ok true) := by
    intro l
    induction l with
    | nil => exact fun acc _ => ⟨acc, rfl, fun y hy => .inl hy⟩
    | cons x l ih =>
      intro acc h
      obtain ⟨v, hv⟩ := h x List.mem_cons_self
      obtain ⟨ys, hys, hmem⟩ := ih (cond v (x :: acc) acc) fun y hy => h y (List.mem_cons_of_mem _ hy)
      refine ⟨ys, ?_, fun y hy => ?_⟩
      · rw [List.filterAuxM, hv]
        exact hys
      · rcases hmem y hy with hy | ⟨hy, hf⟩
        · cases v with
          | false => exact .inl hy
          | true =>
            rcases List.mem_cons.1 hy with rfl | hy
            · exact .inr ⟨List.mem_cons_self, hv⟩
            · exact .inl hy
        · exact .inr ⟨List.mem_cons_of_mem _ hy, hf⟩
  obtain ⟨ys, hys, hmem⟩ := haux l [] h
  refine ⟨ys.reverse, by rw [List.filterM, hys]; rfl, fun y hy => ?_⟩
  exact (hmem y (List.mem_reverse.1 hy)).resolve_left (by simp)

theorem exists_mapM {α β : Type} {f : α → Except Fault β} (h : ∀ x, ∃ v, f x = .ok v) (l : List α) :
    ∃ ys, l.mapM f = .ok ys := by
  induction l with
  | nil => exact ⟨[], rfl⟩
  | cons x l ih =>
    obtain ⟨v, hv⟩ := h x
    obtain ⟨ys, hys⟩ := ih
    exact ⟨v :: ys, by rw [List.mapM_cons, hv, hys]; rfl⟩

/-- The configuration has left the rule where the prediction began, or is at the end of a rule. -/
def Finished (net : Network) (c : Config) : Prop := 0 < c.outer ∨ (net.state c.state).isRuleStop = true

theorem finishedAlt_ok (hsize : (net.states.size : Int) ≤ StackContext.bottom) {wild : Bool} {l : List Config}
    (hproper : ∀ c ∈ l, Proper net.states.size wild c.context) :
    ∃ alt, finishedAlt net l = .ok alt ∧ (alt ≠ 0 → ∃ c ∈ l, c.alt = alt ∧ Finished net c) := by
  obtain ⟨done, hdone, hmem⟩ := filterM_ok l (f := fun c : Config => do
    if c.outer > 0 then return true
    if (net.state c.state).isRuleStop then c.context.hasEmptyPath else return false) (by
      intro c hc
      obtain ⟨b, hb, -⟩ := (hproper c hc).hasEmptyPath_eq hsize
      by_cases houter : c.outer > 0
      · exact ⟨true, by simp only [if_pos houter]; rfl⟩
      · by_cases hstop : (net.state c.state).isRuleStop = true
        · exact ⟨b, by simp only [if_neg houter, if_pos hstop]; exact hb⟩
        · exact ⟨false, by simp only [if_neg houter, if_neg hstop]; rfl⟩)
  refine ⟨(ConfigSet.sorted (done.map Config.alt)).headD 0, ?_, fun hne => ?_⟩
  · rw [finishedAlt, hdone]
    rfl
  · have hdone' : done.map Config.alt ≠ [] := by
      intro h
      rw [h] at hne
      exact hne rfl
    obtain ⟨c, hc, halt⟩ := List.mem_map.1 (ConfigSet.headD_sorted_mem hdone' 0)
    obtain ⟨hcs, hrun⟩ := hmem c hc
    refine ⟨c, hcs, halt, ?_⟩
    by_cases houter : c.outer > 0
    · exact .inl houter
    · by_cases hstop : (net.state c.state).isRuleStop = true
      · exact .inr hstop
      · simp only [if_neg houter, if_neg hstop] at hrun
        cases hrun

theorem fallback_ok (hsize : (net.states.size : Int) ≤ StackContext.bottom) (hr : Apt net r) {wild : Bool}
    (hproper : ∀ c ∈ set.configs, Proper net.states.size wild c.context) (b : Bool) :
    ∃ alt, fallback set b r = .ok alt r ∧ (alt ≠ 0 → ∃ c ∈ set.configs, c.alt = alt ∧ Finished net c) := by
  obtain ⟨valid, hvalid⟩ := exists_mapM (f := fun c : Config => do
    if c.guard = .always then return true
    return (← c.guard.eval (r.oracle b)).getD false) (by
      intro c
      obtain ⟨v, hv⟩ := Guard.eval_ok (hr.decided b) c.guard
      by_cases h : c.guard = .always
      · exact ⟨true, by simp only [if_pos h]; rfl⟩
      · exact ⟨v.getD false, by simp only [if_neg h, hv]; rfl⟩) set.configs.toList
  have hpart : ∀ p : Config × Bool → Bool,
      ∀ c ∈ ((set.configs.toList.zip valid).filter p).map Prod.fst, c ∈ set.configs := by
    intro p c hc
    obtain ⟨⟨d, v⟩, hd, rfl⟩ := List.mem_map.1 hc
    exact Array.mem_toList_iff.1 (List.of_mem_zip (List.mem_filter.1 hd).1).1
  have hfinished : ∀ p : Config × Bool → Bool, ∃ alt,
      finishedAlt net (((set.configs.toList.zip valid).filter p).map Prod.fst) = .ok alt ∧
        (alt ≠ 0 → ∃ c ∈ set.configs, c.alt = alt ∧ Finished net c) := by
    intro p
    obtain ⟨alt, halt, hmem⟩ := finishedAlt_ok (l := ((set.configs.toList.zip valid).filter p).map Prod.fst)
      hsize fun c hc => hproper c (hpart p c hc)
    refine ⟨alt, halt, fun hne => ?_⟩
    obtain ⟨c, hc, hrest⟩ := hmem hne
    exact ⟨c, hpart p c hc, hrest⟩
  obtain ⟨alt, halt, hmem⟩ := hfinished (·.2)
  obtain ⟨alt', halt', hmem'⟩ := hfinished (!·.2)
  have hrun : fallback set b r = (if alt ≠ 0 then pure alt else pure alt' : RecM Int) r := by
    rw [fallback, Run.get_bind]
    dsimp only
    rw [hvalid, hr.network]
    have h2 : Recognizer.ofFault (finishedAlt net (((set.configs.toList.zip valid).filter (!·.2)).map Prod.fst)) =
        pure alt' := by
      rw [halt']
      rfl
    rw [← h2]
    exact Run.bind_ok (Recognizer.ofFault_ok halt)
  rw [hrun]
  split
  · exact ⟨alt, rfl, fun _ => hmem ‹_›⟩
  · exact ⟨alt', rfl, hmem'⟩

theorem noViable_ok (hr : Apt net r) (hq : Equipped net q r) (hon : On T j r.stream) (hi : i ≤ j)
    (hstart : q.start = i) (outer : Option Callers) (dead : ConfigSet) :
    ∃ e r', noViable q outer dead r = .ok e r' ∧ Roamed net q T j r r' ∧ Parser.Sensible T e := by
  have hread := hon.read
  have hlast := hon.le
  have htoken : TokenStream.tokenAt q.start r.stream = .ok (T.token i) r.stream := by
    rw [hstart]
    exact hon.tokenAt (by omega)
  obtain ⟨r₁, hrun₁, hroam₁, -⟩ := onStream_roams hr hq htoken hon
  obtain ⟨r₂, hrun₂, hroam₂, -⟩ := onStream_roams (hroam₁.apt hr) hroam₁.equipped hroam₁.on.current hroam₁.on
  let e : RecognitionError := {
    cause := .noViable
    start := some (T.token i)
    offending := some (T.token j)
    state := r₂.state
    callers := outer.getD q.around
    dead := some dead }
  refine ⟨e, r₂, ?_, hroam₁.trans hroam₂, ⟨j, hlast, rfl⟩, .inl ⟨rfl, i, by omega, rfl⟩⟩
  rw [noViable, Run.bind_ok hrun₁, Run.bind_ok hrun₂]
  rfl

theorem giveUp_ok (hsize : (net.states.size : Int) ≤ StackContext.bottom) (hr : Apt net r) (hq : Equipped net q r)
    (hon : On T j r.stream) (hi : i ≤ j) (hvisible : Tape.visible (T.token i) = true) (hstart : q.start = i)
    (outer : Option Callers) {wild : Bool} (hproper : ∀ c ∈ set.configs, Proper net.states.size wild c.context) :
    Ends (fun _ => False) (giveUp q outer set) r
      (fun alt r' => Roamed net q T i r r' ∧ ∃ c ∈ set.configs, c.alt = alt ∧ Finished net c)
      (fun e r' => Roamed net q T i r r' ∧ Parser.Sensible T e) := by
  have hlast := hon.le
  obtain ⟨e, r₁, hrun₁, hroam₁, he⟩ := noViable_ok hr hq hon hi hstart outer set
  obtain ⟨r₂, hrun₂, hroam₂, -⟩ := seek_ok (i := i) (hroam₁.apt hr) hroam₁.equipped hroam₁.on hvisible (by omega)
  have hroam := hroam₁.trans hroam₂
  obtain ⟨alt, hrun₃, hmem⟩ := fallback_ok hsize (hroam.apt hr) hproper outer.isSome
  refine .bind_ok hrun₁ (.bind_ok (by rw [hstart]; exact hrun₂) (.bind_ok hrun₃ ?_))
  split
  · exact .of_ok rfl ⟨hroam, hmem ‹_›⟩
  · exact .of_recognition rfl ⟨hroam, he⟩

end Prediction

end Throbac
