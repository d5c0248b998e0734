import Throbac.Proofs.Prediction.FullContext

/-!
# The answer of a prediction

A prediction follows the automaton of its choice, which grows where it has to, and starts again with the
full stack where alternatives conflict. Whatever is cached, it ends with an alternative that can start
with the present token, or with an error that can be reported.
-/
namespace Throbac

open StackContext (Proper Known)
open TokenStream (On)

namespace Prediction

variable {net : Network} {rank : Nat → Nat} {ends : Nat → Bool} {k n i j : Nat} {r₀ r r' : Recognizer} {q : Question}
  {T : Tape} {x t : Int} {γ : List Nat} {outer : Option Callers} {s : AutoState ConfigSet}

theorem seekIf_ok (hroam : Roamed net q T j r₀ r) (hr : Apt net r₀) {p : Int} (hp : p = i)
    (hvisible : Tape.visible (T.token i) = true) (hi : i ≤ T.last) (c : Prop) [Decidable c] :
    ∃ r' j', (if c then Recognizer.onStream (TokenStream.seek p) else pure ()) r = .ok ⟨⟩ r' ∧
      Roamed net q T j' r₀ r' ∧ r'.merges = r.merges := by
  split
  · obtain ⟨r', hseek, hroam', hmerges⟩ := seek_ok (hroam.apt hr) hroam.equipped hroam.on hvisible hi
    exact ⟨r', i, by rw [hp]; exact hseek, hroam.trans hroam', hmerges⟩
  · exact ⟨r, j, rfl, hroam, rfl⟩

theorem settleConflict_ok (hroam : Roamed net q T j r₀ r) (hr : Apt net r₀) (hstart : q.start = i)
    (hvisible : Tape.visible (T.token i) = true) (hi : i ≤ T.last) (hs : Settled net q.decision s)
    (hfair : ∀ c ∈ s.configs.configs, Fair net q.decision x c.alt) :
    ∃ res r' j', settleConflict q outer s r = .ok res r' ∧ Roamed net q T j' r₀ r' ∧ r'.merges = r.merges ∧
      ∀ alt, res = .error alt → Fair net q.decision x alt := by
  have hapt := hroam.apt hr
  rw [settleConflict]
  cases hgs : s.guards with
  | none => exact ⟨_, r, j, rfl, hroam, rfl, fun alt h => by cases h⟩
  | some gs =>
    dsimp only
    obtain ⟨r₁, j₁, hback, hroam₁, hmerges₁⟩ := seekIf_ok hroam hr hstart hvisible hi (r.stream.index ≠ q.start)
    have hapt₁ := hroam₁.apt hr
    obtain ⟨alts, heval, hoffered⟩ := evalGuards_ok hapt₁ gs outer.isSome
    rw [Run.bind_ok (hapt.note rfl _), Run.get_bind, Run.ite_bind hback, Run.bind_ok heval]
    split
    · next alt =>
      refine ⟨.error alt, r₁, j₁, ?_, hroam₁, hmerges₁, ?_⟩
      · rw [Run.bind_ok (hapt₁.note rfl _)]
        rfl
      · rintro _ ⟨⟩
        obtain ⟨p, hp, rfl⟩ := hoffered alt List.mem_cons_self
        obtain ⟨c, hc, halt⟩ := hs.offered gs hgs p hp
        exact halt ▸ hfair c hc
    · obtain ⟨r₂, j₂, hforth, hroam₂, hmerges₂⟩ := seekIf_ok hroam₁ hr hroam.on.index hroam.on.visible hroam.on.le
        (r.stream.index ≠ q.start)
      refine ⟨.ok (some alts), r₂, j₂, ?_, hroam₂, hmerges₂.trans hmerges₁, fun alt h => by cases h⟩
      rw [Run.ite_bind hforth]
      rfl

theorem accept_ok (hroam : Roamed net q T j r₀ r) (hr : Apt net r₀) (hstart : q.start = i)
    (hvisible : Tape.visible (T.token i) = true) (hi : i ≤ T.last) (hs : Settled net q.decision s)
    (haccepting : s.accepting = true) (hfair : ∀ c ∈ s.configs.configs, Fair net q.decision x c.alt) :
    Ends (fun _ => False) (accept q outer s) r (Answered net q T x r₀) (Refused net q T r₀) := by
  unfold accept
  cases hgs : s.guards with
  | none =>
    obtain ⟨c, hc, halt⟩ := hs.prediction haccepting hgs
    exact .of_ok rfl ⟨⟨j, hroam⟩, halt ▸ hfair c hc⟩
  | some gs =>
    obtain ⟨r₁, hseek, hroam', -⟩ := seek_ok (i := i) (hroam.apt hr) hroam.equipped hroam.on hvisible hi
    have hroam₁ := hroam.trans hroam'
    have hapt₁ := hroam₁.apt hr
    obtain ⟨alts, heval, hoffered⟩ := evalGuards_ok hapt₁ gs outer.isSome
    have hanswer : ∀ alt ∈ alts, Answered net q T x r₀ alt r₁ := by
      intro alt halt
      obtain ⟨p, hp, rfl⟩ := hoffered alt halt
      obtain ⟨c, hc, halt⟩ := hs.offered gs hgs p hp
      exact ⟨⟨i, hroam₁⟩, halt ▸ hfair c hc⟩
    refine .bind_ok (Run.get_apply r) (.bind_ok (by rw [hstart]; exact hseek) (.bind_ok heval ?_))
    split
    · obtain ⟨e, r₂, hrun, hroam₂, he⟩ := noViable_ok hapt₁ hroam₁.equipped hroam₁.on (Nat.le_refl i) hstart
        outer s.configs
      exact .of_recognition (Run.bind_ok hrun) ⟨⟨i, hroam₁.trans hroam₂⟩, he⟩
    · exact .of_ok rfl (hanswer _ List.mem_cons_self)
    · exact .bind_ok (remarkAmbiguity_ok hapt₁ _ _ _ _) (.of_ok rfl (hanswer _ List.mem_cons_self))

theorem targetOf_ok (hnet : Mapped net rank ends k) (hr : Apt net r) (hq : Equipped net q r)
    (hdecision : q.decision < net.decisions.size) (hknown : Known net.states.size true r.merges)
    (hs : (autoOf q r).states[n]? = some s) (t : Int) :
    ∃ target r', targetOf q n s t r = .ok target r' ∧ Tuned net q false r r' ∧
      LeadsTo net (autoOf q r') t s.configs target := by
  unfold targetOf
  cases hedge : if t + 1 < 0 then none else s.edgeAt (t + 1).toNat with
  | none => exact computeTarget_ok hnet hr.toCalm hr.mode hq hdecision hknown hs
  | some target =>
    split at hedge
    · cases hedge
    · exact ⟨target, r, rfl, .refl hq hknown, hq.cached.edges n s hs _ target (by omega) hedge⟩

/-- A question about a choice at a place of the input. -/
structure Posed (net : Network) (q : Question) (T : Tape) (i : Nat) (r : Recognizer) : Prop where
  apt : Apt net r
  equipped : Equipped net q r
  on : On T i r.stream
  start : q.start = i
  decision : q.decision < net.decisions.size
  opens : ∀ (k : Nat) e xs, (net.edges (autoOf q r).origin)[k]? = some e →
    Grammar.opening q.decision (k + 1) = some xs → net.Opens xs e.target

theorem Posed.roamed (hq : Posed net q T i r) (h : Roamed net q T i r r') : Posed net q T i r' :=
  ⟨h.apt hq.apt, h.equipped, h.on, hq.start, hq.decision, by rw [h.grew.origin]; exact hq.opens⟩

theorem Posed.bottomRule_entrance (hnet : Mapped net rank ends k) (hq : Posed net q T i r) {e : Edge}
    (he : e ∈ net.edges (autoOf q r).origin) :
    net.bottomRule e.target γ = net.bottomRule (autoOf q r).origin γ := by
  have horigin : (autoOf q r).origin ∈ net.decisions := by
    rw [hq.equipped.cached.origin, Array.getD_eq_getD_getElem?, Array.getElem?_eq_getElem hq.decision]
    exact Array.getElem_mem _
  obtain ⟨hstop, hplain⟩ := hnet.choices _ horigin
  obtain ⟨o, hlabel⟩ := hplain e he
  exact Network.bottomRule_edge hnet.wired hstop he (by rw [hlabel]; rfl)

section

variable (hnet : Mapped net rank ends k) (hq : Posed net q T i r₀)
  (hcallers : StackContext.ofInvocations net (outer.getD []).invocations = .ok (.ofStack γ))
  (hγ : ∀ r ∈ γ, r < net.states.size)
include hnet hq hcallers hγ

theorem restart_ok (hroam : Roamed net q T j r₀ r) (hknown : Known net.states.size true r.merges)
    (alts : Option (List Int)) :
    Ends (fun _ => False) (restart q outer alts s) r (Answered net q T (T.token i).type r₀)
      (Refused net q T r₀) := by
  have hapt := hroam.apt hq.apt
  have hsize := hnet.charted.small
  have henv : (surroundings q r true false).network = net := hapt.network
  have horigin : (autoOf q r).origin = (autoOf q r₀).origin := hroam.grew.origin
  have hwidth : net.width q.decision = (net.edges (autoOf q r₀).origin).size := by
    rw [hq.equipped.cached.origin, Network.width, Int.toNat_natCast]
  have hkept := ((Started.kept q.decision (surroundings q r true false) rfl).and (kept_stacked
    (b := net.bottomRule (autoOf q r₀).origin γ) (A := fun _ => True) (by rw [henv]; exact hnet.charted)
    (by rw [henv]; exact hnet.wired) rfl)).ripe (by rw [henv]; exact hsize)
  rw [henv] at hkept
  obtain ⟨set, r₁, hset, hsearched, hfine⟩ := startSet_ok (outer.getD []) γ hnet hapt.toCalm hcallers hγ hkept (by
    intro k e he
    rw [horigin] at he
    refine ⟨started_entrance hwidth hq.opens he _, trivial, fun δ hδ => ?_⟩
    obtain rfl := (StackContext.has_ofStack hsize hγ).1 hδ
    exact hq.bottomRule_entrance hnet (Array.mem_of_getElem? he)) (Known.mono hknown)
  have hroam₁ := hroam.trans (hsearched.roamed hroam.equipped hroam.on)
  have hapt₁ := hroam₁.apt hq.apt
  have htrack : OnTrack net q.decision (T.token i).type (T.token i).type
      (net.bottomRule (autoOf q r₀).origin γ) set := by
    refine ⟨fine_of_mem hfine fun c hc => ?_, fun c hc => (fine_mem hfine hc).1.1.1.1,
      .inr ⟨rfl, Started.begins fun c hc => (fine_mem hfine hc).1.1.1⟩⟩
    have := (fine_mem hfine hc).1
    exact ⟨this.1.2, this.2⟩
  exact .bind_ok hset (.bind_ok (Run.get_apply r₁) (.bind_ok (remarkFullContext_ok hapt₁ alts s.configs _)
    (hroam₁.onward (f := id) (predictFull_ok hnet hq.start hq.on.visible hq.on.le outer hapt₁ hroam₁.equipped
      hroam₁.on hsearched.known htrack))))

theorem run_ok (fuel : Nat) (hroam : Roamed net q T j r₀ r) (hij : i ≤ j) (hfuel : T.last < j + fuel)
    (hknown : Known net.states.size true r.merges) (hs : (autoOf q r).states[n]? = some s)
    (hentry : Entry net q.decision (T.token i).type (T.token j).type s.configs) :
    Ends (fun _ => False) (run q outer fuel n (T.token j).type) r (Answered net q T (T.token i).type r₀)
      (Refused net q T r₀) := by
  induction fuel generalizing r j n s with
  | zero =>
    have := hroam.on.le
    omega
  | succ fuel ih =>
    have hle := hroam.on.le
    have hapt := hroam.apt hq.apt
    have hsettled := hroam.equipped.cached.states n s hs
    obtain ⟨target, r₁, htarget, htuned, hleads⟩ := targetOf_ok hnet hapt hroam.equipped hq.decision hknown hs
      (T.token j).type
    have hroam₁ := hroam.trans (htuned.roamed hroam.on)
    have hapt₁ := hroam₁.apt hq.apt
    unfold run
    refine .bind_ok (stateAt_eq hs) (.bind_ok htarget ?_)
    cases target with
    | failure =>
      refine (giveUp_ok hnet.charted.small hapt₁ hroam₁.equipped hroam₁.on hij hq.on.visible hq.start outer
        hsettled.proper).mono ?_ ?_
      · rintro alt r' ⟨hroam', c, hc, rfl, hfinished⟩
        exact ⟨⟨i, hroam₁.trans hroam'⟩, hentry.finished hc hfinished⟩
      · rintro e r' ⟨hroam', he⟩
        exact ⟨⟨i, hroam₁.trans hroam'⟩, he⟩
    | state m =>
      obtain ⟨s', hs', hleads⟩ := hleads
      have hsettled' := hroam₁.equipped.cached.states m s' hs'
      have hfair : ∀ c ∈ s'.configs.configs, Fair net q.decision (T.token i).type c.alt := by
        intro c hc
        obtain ⟨e, he, halt, hfeeds⟩ := hleads.alts c hc
        exact halt ▸ hentry.fed he hfeeds
      refine .bind_ok (stateAt_eq hs') (.bind_ok (Run.get_apply r₁) ?_)
      by_cases hneeds : s'.needsStack = true
      · rw [if_pos ⟨hneeds, by rw [hapt₁.mode]; decide⟩]
        obtain ⟨res, r₂, j₂, hsettle, hroam₂, hmerges, hres⟩ := settleConflict_ok hroam₁ hq.apt hq.start
          hq.on.visible hq.on.le hsettled' hfair
        refine .bind_ok hsettle ?_
        match res, hres with
        | .error alt, hres => exact .of_ok rfl ⟨⟨j₂, hroam₂⟩, hres alt rfl⟩
        | .ok alts, _ =>
          refine .bind_ok ((hroam₂.apt hq.apt).note rfl _) ?_
          exact restart_ok hnet hq hcallers hγ hroam₂ (by rw [hmerges]; exact htuned.known) alts
      · rw [if_neg fun h => hneeds h.1]
        by_cases haccepting : s'.accepting = true
        · rw [if_pos haccepting]
          exact accept_ok hroam₁ hq.apt hq.start hq.on.visible hq.on.le hsettled' haccepting hfair
        · rw [if_neg haccepting]
          have hlt : j < T.last := by
            by_contra hnot
            exact haccepting (hsettled'.accepting.2 (hleads.ended ((Tape.type_eq_eof_iff hle).2 (by omega))))
          obtain ⟨r₂, hstep, hroam₂, hmerges₂⟩ := step_ok hapt₁ hroam₁.equipped hroam₁.on hlt
          have hforward : j < T.seek (j + 1) := Nat.lt_of_succ_le (Tape.le_seek hlt)
          obtain ⟨s'', hs'', hsame⟩ := hroam₂.grew.configs hs'
          exact .bind_ok hstep (ih (hroam₁.trans hroam₂) (by omega) (by omega)
            (by rw [hmerges₂]; exact htuned.known) hs'' (by rw [hsame]; exact .of_fair hfair))

end

theorem knownStart_ok (q : Question) (r : Recognizer) :
    ∃ o, knownStart q r = .ok o r ∧ (∀ n, o = some n → (autoOf q r).start = some n ∧ (autoOf q r).byPrecedence = false ∨
        ∃ p : Nat, (autoOf q r).precedenceStarts.getD p none = some n ∧ (autoOf q r).byPrecedence = true) ∧
      (o = none → (autoOf q r).byPrecedence = false → (autoOf q r).start = none) := by
  have hauto : automaton q r = .ok (autoOf q r) r := rfl
  rw [knownStart, Run.bind_ok hauto]
  cases hby : (autoOf q r).byPrecedence with
  | false =>
    rw [if_neg Bool.false_ne_true]
    exact ⟨_, rfl, fun n hn => .inl ⟨hn, rfl⟩, fun h _ => h⟩
  | true =>
    rw [if_pos rfl, Run.get_bind, Automaton.precedenceStart, if_neg (by simp [hby])]
    split
    · exact ⟨none, rfl, fun n hn => (by cases hn), fun _ h => (by cases h)⟩
    · exact ⟨_, rfl, fun n hn => .inr ⟨r.precedence.toNat, hn, rfl⟩, fun _ h => (by cases h)⟩

theorem beginning_ok (hnet : Mapped net rank ends k) (hq : Posed net q T i r) (hasked : q.asked.isSome = true)
    (hbegun : Begun (autoOf q r) ∨ (autoOf q r).states = #[]) (hknown : Known net.states.size true r.merges) :
    ∃ n r' s, beginning q r = .ok (n, q.asked) r' ∧ Tuned net q false r r' ∧ Begun (autoOf q r') ∧
      (autoOf q r').states[n]? = some s ∧ Begins net q.decision s.configs := by
  obtain ⟨o, hrun, hsome, hnone⟩ := knownStart_ok q r
  rw [beginning, Run.bind_ok hrun]
  cases o with
  | some n =>
    rcases hsome n rfl with ⟨hstart, hby⟩ | ⟨p, hstart, hby⟩
    · obtain ⟨s, hs, hbegins⟩ := hq.equipped.cached.start n hstart
      exact ⟨n, r, s, rfl, .refl hq.equipped hknown, .inr (by rw [hstart]; rfl), hs, hbegins⟩
    · obtain ⟨s, hs⟩ := hq.equipped.cached.starts p n hstart
      exact ⟨n, r, s, rfl, .refl hq.equipped hknown, .inl hby, hs, begins_of_byPrecedence hq.equipped.cached hby hs⟩
  | none =>
    obtain ⟨n, r', s, hfind, htuned, hbegun', hs, hbegins⟩ := findStart_ok hnet hq.apt.toCalm hq.equipped
      hq.opens hknown hbegun (hnone rfl)
    obtain ⟨cs, hcs⟩ := Option.isSome_iff_exists.1 hasked
    refine ⟨n, r', s, ?_, htuned, hbegun', hs, hbegins⟩
    have hauto : automaton q r = .ok (autoOf q r) r := rfl
    dsimp only
    rw [Run.bind_ok hauto, Run.bind_ok (hq.apt.note rfl _), Run.bind_ok hfind, hcs]
    rfl

section

variable (hnet : Mapped net rank ends k) (hq : Posed net q T i r) (hasked : q.asked.isSome = true)
  (hbegun : Begun (autoOf q r) ∨ (autoOf q r).states = #[])
  (hcallers : StackContext.ofInvocations net (q.asked.getD []).invocations = .ok (.ofStack γ))
  (hγ : ∀ r ∈ γ, r < net.states.size)
include hnet hq hasked hbegun hcallers hγ

theorem answer_ok (hknown : Known net.states.size true r.merges) :
    Ends (fun _ => False) (answer q) r
      (fun alt r' => (∃ j, Roamed net q T j r r') ∧ Begun (autoOf q r') ∧ Fair net q.decision (T.token i).type alt)
      fun e r' => (∃ j, Roamed net q T j r r') ∧ Begun (autoOf q r') ∧ Parser.Sensible T e := by
  obtain ⟨n, r₁, s, hrun, htuned, hbegun₁, hs, hbegins⟩ := beginning_ok hnet hq hasked hbegun hknown
  have hroam₁ := htuned.roamed hq.on
  have hapt₁ := hroam₁.apt hq.apt
  obtain ⟨r₂, hsymbol, hroam₂, hmerges₂⟩ := onStream_roams hapt₁ hroam₁.equipped hroam₁.on.symbol_one hroam₁.on
  have hroam := hroam₁.trans hroam₂
  have hq₂ := hq.roamed hroam
  obtain ⟨s₂, hs₂, hsame⟩ := hroam₂.grew.configs hs
  have hrun₂ := run_ok hnet hq₂ hcallers hγ r₂.stepBound (.refl hroam₂.equipped hroam₂.on) (Nat.le_refl i)
    (stepBound_lt hroam₂.on) (by rw [hmerges₂]; exact htuned.known) hs₂
    (by rw [hsame]; exact ⟨(hroam₁.equipped.cached.states n s hs).alts, .inr ⟨rfl, hbegins⟩⟩)
  have hauto : automaton q r₁ = .ok (autoOf q r₁) r₁ := rfl
  refine .bind_ok hrun (.bind_ok hauto (.bind_ok (hapt₁.note rfl _) (.bind_ok (Run.get_apply r₁) ?_)))
  rw [if_neg (by simp [hapt₁.watch])]
  refine .bind_ok hsymbol (.bind_ok (Run.get_apply r₂) ((hrun₂.mono (fun _ _ h => h) ?_).bind ?_))
  · rintro e r' ⟨⟨j, hroam'⟩, he⟩
    exact ⟨⟨j, hroam.trans hroam'⟩, (hroam₂.trans hroam').begun hbegun₁, he⟩
  · rintro alt r' ⟨⟨j, hroam'⟩, hfair⟩
    refine .bind_ok ((hroam'.apt hq₂.apt).note rfl _) (.of_ok rfl ⟨⟨j, hroam.trans hroam'⟩, ?_, hfair⟩)
    exact (hroam₂.trans hroam').begun hbegun₁

theorem predict_ok (hmerges : r.merges = none) :
    Ends (fun _ => False) (predict q.decision q.asked q.around) r
      (fun alt r' => Roamed net q T i r r' ∧ r'.merges = none ∧ Begun (autoOf q r') ∧
        Fair net q.decision (T.token i).type alt)
      fun e r' => Roamed net q T i r r' ∧ r'.merges = none ∧ Begun (autoOf q r') ∧ Parser.Sensible T e := by
  have hanswer := answer_ok hnet hq hasked hbegun hcallers hγ (by rw [hmerges]; exact fun l hl => by cases hl)
  -- afterwards the merges are forgotten, and the input is where it was
  have hback : ∀ {r' : Recognizer} {j : Nat}, Roamed net q T j r r' → ∃ r'',
      (do modify (fun r => { r with merges := none }); Recognizer.onStream (TokenStream.seek r.stream.index) :
        RecM PUnit) r' = .ok ⟨⟩ r'' ∧ Roamed net q T i r r'' ∧ r''.merges = none ∧
          (Begun (autoOf q r') → Begun (autoOf q r'')) := by
    intro r' j hroam
    have hforget : Roamed net q T j r { r' with merges := none } :=
      ⟨congrArg (fun r => { r with merges := none }) hroam.same, hroam.on, ⟨hroam.equipped.lt, hroam.equipped.cached⟩, hroam.grew, hroam.begun, hroam.reports⟩
    obtain ⟨r'', hseek, hroam'', hmerges''⟩ := seek_ok (hforget.apt hq.apt) hforget.equipped hforget.on
      hq.on.visible hq.on.le
    refine ⟨r'', ?_, hforget.trans hroam'', hmerges'', fun hb => hroam''.begun hb⟩
    rw [Run.modify_bind, hq.on.index]
    exact hseek
  unfold predict
  refine .bind_ok (hq.apt.note rfl _) (.bind_ok (Run.get_apply r) ?_)
  rw [Sequence.resolve?_natCast hq.equipped.lt]
  have hquestion : ({ q with start := r.stream.index } : Question) = q := by
    rw [hq.on.index, ← hq.start]
  refine (Ends.ensure (m := answer { q with start := r.stream.index }) (by rw [hquestion]; exact hanswer) ?_ ?_ ?_)
  · rintro alt r' ⟨⟨j, hroam⟩, hb, hfair⟩
    obtain ⟨r'', hrun, hroam'', hm, hb'⟩ := hback hroam
    exact ⟨⟨⟩, r'', hrun, hroam'', hm, hb' hb, hfair⟩
  · rintro e r' ⟨⟨j, hroam⟩, hb, he⟩
    obtain ⟨r'', hrun, hroam'', hm, hb'⟩ := hback hroam
    exact ⟨⟨⟩, r'', hrun, hroam'', hm, hb' hb, he⟩
  · exact fun _ h => h.elim

end

end Prediction

end Throbac
