import Throbac.Proofs.Prediction.Following

/-!
# Predicting with the full stack

With the stacks followed to the bottom, the rule at the bottom of a stack is the same for all
configurations. So at the end of the input they all stand at one place, and the prediction ends there at
the latest.
-/
namespace Throbac

open StackContext (Proper Known)
open TokenStream (On)

theorem StackContext.has_push {c : StackContext} {r : Nat} {γ : List Nat} (hr : (r : Int) ≠ bottom) :
    (c.push r).Has γ ↔ ∃ δ, γ = r :: δ ∧ c.Has δ := by
  cases c with
  | null =>
    rw [push, if_neg hr]
    exact has_single hr
  | _ => exact has_single hr

namespace Network

variable {net : Network} {n m : Nat} {γ δ : List Nat}

def bottomRule (net : Network) : Nat → List Nat → Int
  | n, [] => (net.state n).rule
  | _, r :: γ => net.bottomRule r γ

theorem bottomRule_of_rule (h : (net.state m).rule = (net.state n).rule) :
    net.bottomRule m γ = net.bottomRule n γ := by
  cases γ with
  | nil => exact h
  | cons r γ => rfl

theorem bottomRule_edge (hnet : net.Wired) (hstop : (net.state n).isRuleStop = false) {e : Edge}
    (he : e ∈ net.edges n) (hcall : e.label.follow? = none) :
    net.bottomRule e.target γ = net.bottomRule n γ :=
  bottomRule_of_rule (hnet.stays _ hstop _ he hcall)

end Network

namespace Prediction

variable {net : Network} {rank : Nat → Nat} {ends : Nat → Bool} {k n i j : Nat} {r r' r'' : Recognizer} {q : Question}
  {T : Tape} {t b x : Int} {set reach : ConfigSet} {A : Int → Prop}

/-! ## Searches -/

/-- A property of the alternative, and the rule that is at the bottom of each stack. -/
structure Stacked (net : Network) (b : Int) (A : Int → Prop) (c : Config) : Prop where
  alt : A c.alt
  bottom : ∀ γ, c.context.Has γ → net.bottomRule c.state γ = b

theorem follow?_of_reads {label : Label} {least greatest : Int} (h : label.reads t least greatest = true) : label.follow? = none := by
  cases label <;> simp_all [Label.reads, Label.follow?]

theorem Stacked.step {env : Surroundings} (hcharted : Charted env.network rank ends) (hwired : env.network.Wired)
    (hfull : env.full = true) {x y : Stage} (hstep : Step env x y) (hx : Stacked env.network b A x.config) :
    Stacked env.network b A y.config := by
  refine ⟨hstep.alt ▸ hx.alt, fun γ hγ => ?_⟩
  cases hstep with
  | along he halong =>
    cases halong with
    | slip hstop hsilent hcall _ => exact (Network.bottomRule_edge hwired hstop he hcall).trans (hx.bottom γ hγ)
    | call hstop hcall =>
      have hret := (hcharted.call _ hstop _ he _ hcall).1
      have hsmall := hcharted.small
      obtain ⟨δ, rfl, hδ⟩ := (StackContext.has_push (by omega)).1 hγ
      exact (Network.bottomRule_of_rule (hwired.returns _ hstop _ he _ hcall)).trans (hx.bottom δ hδ)
    | eof hstop _ hreads =>
      exact (Network.bottomRule_edge hwired hstop he (follow?_of_reads hreads)).trans (hx.bottom γ hγ)
    | fall _ hnot => cases hfull.symm.trans hnot
  | @back c _ _ p r hstop hframe hr => exact hx.bottom (r :: γ) ⟨hr, p, hframe, hγ⟩
  | @ground c _ _ p hstop _ hframe =>
    obtain rfl := StackContext.has_empty.1 hγ
    exact hx.bottom [] ⟨p, hframe⟩

theorem mergeable_stacked (size : Nat) (wild : Bool) : Mergeable size wild (Stacked net b A) := by
  intro e c m hshare he hc hm
  obtain ⟨hstate, halt, -⟩ := Config.sharesPlace_iff.1 hshare
  refine ⟨he.alt, fun γ hγ => ?_⟩
  rcases hm.sound γ hγ with h | h
  · exact he.bottom γ h
  · have := hc.bottom γ h
    rw [hstate] at this
    exact this

theorem kept_stacked {env : Surroundings} (hcharted : Charted env.network rank ends) (hwired : env.network.Wired)
    (hfull : env.full = true) :
    Kept env (fun x => Stacked env.network b A x.config) (Stacked env.network b A) :=
  ⟨fun _ _ hstep hx => hx.step hcharted hwired hfull hstep, fun _ hx _ => hx, mergeable_stacked _ _⟩

theorem carried_stacked {env : Surroundings} (hcharted : Charted env.network rank ends) (hwired : env.network.Wired)
    (hfull : env.full = true) (hA : ∀ i, A i → 1 ≤ i) : Carried env (Stacked env.network b A) :=
  ⟨kept_stacked hcharted hwired hfull, fun c hc => hA c.alt hc.alt⟩

/-! ## Fair answers -/

/-- The alternative is one of the decision's, and can start with the symbol. -/
def Fair (net : Network) (d : Nat) (x alt : Int) : Prop :=
  (1 ≤ alt ∧ alt ≤ net.width d) ∧ ∀ xs, Grammar.opening d alt = some xs → x ∈ xs

/-- All alternatives of the set can start with the symbol `x`, or the set is the one that the choice
starts with and `x` is still to be read. -/
structure Entry (net : Network) (d : Nat) (x t : Int) (set : ConfigSet) : Prop where
  alts : ∀ c ∈ set.configs, 1 ≤ c.alt ∧ c.alt ≤ net.width d
  fair : (∀ c ∈ set.configs, Fair net d x c.alt) ∨ t = x ∧ Begins net d set

variable {d : Nat} {c : Config}

theorem Entry.fed {full : Bool} (h : Entry net d x t set) (hc : c ∈ set.configs) (hfeeds : Feeds net full t c) :
    Fair net d x c.alt := by
  rcases h.fair with hfair | ⟨rfl, hbegins⟩
  · exact hfair c hc
  · refine ⟨h.alts c hc, fun xs hxs => ?_⟩
    obtain ⟨-, hgoes, hreads⟩ := hbegins c hc xs hxs
    rcases hfeeds with ⟨hstop, -⟩ | ⟨-, e, he, hlabel⟩
    · cases hgoes.symm.trans hstop
    · exact hreads e he t hlabel

theorem Entry.finished (h : Entry net d x t set) (hc : c ∈ set.configs) (hfinished : Finished net c) :
    Fair net d x c.alt := by
  rcases h.fair with hfair | ⟨rfl, hbegins⟩
  · exact hfair c hc
  · refine ⟨h.alts c hc, fun xs hxs => ?_⟩
    obtain ⟨houter, hgoes, -⟩ := hbegins c hc xs hxs
    rcases hfinished with hout | hstop
    · omega
    · cases hgoes.symm.trans hstop

theorem Entry.of_fair (h : ∀ c ∈ set.configs, Fair net d x c.alt) : Entry net d x t set :=
  ⟨fun c hc => (h c hc).1, .inl h⟩

/-- The prediction gives an alternative that can start with the symbol. -/
def Answered (net : Network) (q : Question) (T : Tape) (x : Int) (r : Recognizer) (alt : Int)
    (r' : Recognizer) : Prop :=
  (∃ j, Roamed net q T j r r') ∧ Fair net q.decision x alt

/-- The prediction ends with an error that can be reported. -/
def Refused (net : Network) (q : Question) (T : Tape) (r : Recognizer) (e : RecognitionError)
    (r' : Recognizer) : Prop :=
  (∃ j, Roamed net q T j r r') ∧ Parser.Sensible T e

theorem Roamed.onward {α : Type} {m : RecM α} {f : α → Int} (h : Roamed net q T j r r')
    (hends : Ends (fun _ => False) m r' (fun a => Answered net q T x r' (f a)) (Refused net q T r')) :
    Ends (fun _ => False) m r' (fun a => Answered net q T x r (f a)) (Refused net q T r) := by
  refine hends.mono ?_ ?_
  · rintro a r'' ⟨⟨j', h'⟩, hfair⟩
    exact ⟨⟨j', h.trans h'⟩, hfair⟩
  · rintro e r'' ⟨⟨j', h'⟩, he⟩
    exact ⟨⟨j', h.trans h'⟩, he⟩

/-! ## Following the input -/

/-- The set stands for runs that have come to the place. -/
structure OnTrack (net : Network) (d : Nat) (x t b : Int) (set : ConfigSet) : Prop where
  fine : set.Fine net.states.size true (Ripe net true (Stacked net b fun _ => True))
  entry : Entry net d x t set

/-- The set is where the symbol has led. Unless one alternative is left, all is explored. -/
structure Reached (net : Network) (d : Nat) (x t b : Int) (reach : ConfigSet) : Prop where
  ne : reach.configs ≠ #[]
  fine : reach.Fine net.states.size true (Stacked net b (Fair net d x))
  closed : uniqueAlt reach = 0 →
    reach.Fine net.states.size true (Closed net t (Ripe net true (Stacked net b (Fair net d x))))

theorem OnTrack.readable (hnet : Mapped net rank ends k) (h : OnTrack net d x t b set) :
    Readable net true t (Stacked net b (Fair net d x)) set := by
  refine ⟨fun c hc => (fine_mem h.fine hc).2, fun c hc hstop e he hreads => ⟨?_, fun γ hγ => ?_⟩,
    fun c hc hstop _ => ⟨⟨?_, (fine_mem h.fine hc).1.1.bottom⟩, (fine_mem h.fine hc).1.2⟩⟩
  · have hfeeds : Feeds net true t c := .inr ⟨hstop, e, he, hreads⟩
    exact show Fair net d x c.alt from h.entry.fed hc hfeeds
  · rw [← (fine_mem h.fine hc).1.1.bottom γ hγ]
    exact Network.bottomRule_edge hnet.wired hstop he (follow?_of_reads hreads)
  · have hfeeds : Feeds net true t c := .inl ⟨hstop, .inl rfl⟩
    exact h.entry.fed hc hfeeds

theorem OnTrack.advance (hnet : Mapped net rank ends k) (hr : Apt net r) (h : OnTrack net d x t b set)
    (hknown : Known net.states.size false r.merges) :
    ∃ o r', advance q set t true r = .ok o r' ∧ Searched net true r r' ∧
      ∀ reach, o = some reach → Reached net d x t b reach := by
  have henv : (surroundings q r true (decide (t = Symbol.eof))).network = net := hr.network
  have hcarried : Carried (surroundings q r true (decide (t = Symbol.eof))) (Stacked net b (Fair net d x)) := by
    have := carried_stacked (b := b) (henv.symm ▸ hnet.charted) (henv.symm ▸ hnet.wired) rfl
      fun _ (h : Fair net d x _) => h.1.1
    rwa [henv] at this
  obtain ⟨o, r', hrun, hsearched, hreach⟩ := advance_ok hnet hr.toCalm hcarried (h.readable hnet) hknown
  refine ⟨o, r', hrun, hsearched, fun reach ho => ?_⟩
  obtain ⟨hne, hfine, hripe⟩ := hreach reach ho
  exact ⟨hne, hfine, fun hone => hripe.resolve_left fun h => h.2 hone⟩

namespace Reached

variable (h : Reached net d x t b reach)
include h

theorem fair (hc : c ∈ reach.configs) : Fair net d x c.alt := (fine_mem h.fine hc).1.alt

theorem onTrack (hone : uniqueAlt reach = 0) (t' : Int) : OnTrack net d x t' b reach := by
  refine ⟨fine_of_mem (h.closed hone) fun c hc => ?_, .of_fair fun c hc => h.fair hc⟩
  obtain ⟨⟨hstacked, hempty⟩, -⟩ := (fine_mem (h.closed hone) hc).1
  exact ⟨⟨trivial, hstacked.bottom⟩, hempty⟩

theorem fair_uniqueAlt (hone : uniqueAlt reach ≠ 0) : Fair net d x (uniqueAlt reach) := by
  obtain ⟨c, hc⟩ := Array.exists_mem_of_ne_empty _ h.ne
  exact alt_of_uniqueAlt hone hc ▸ h.fair hc

/-- At the end of the input all configurations are where the outermost rule ends, so one alternative is
viable. -/
theorem singleViable_eof (hnet : Mapped net rank ends k) (hone : uniqueAlt reach = 0) (ht : t = Symbol.eof) :
    ∃ alt, Conflict.singleViable reach.conflictGroups = .ok alt ∧ alt ≠ 0 := by
  have hended : ∀ c ∈ reach.configs, (net.state c.state).isRuleStop = true ∧ c.context = .empty ∧
      (net.state c.state).rule = b := by
    intro c hc
    obtain ⟨⟨hstacked, hempty⟩, hstop⟩ := (fine_mem (h.closed hone) hc).1
    have hcontext := hempty rfl (hstop ht)
    exact ⟨hstop ht, hcontext, hstacked.bottom [] (by rw [hcontext]; exact StackContext.has_empty.2 rfl)⟩
  refine Conflict.singleViable_of_alike h.ne (fun c hc => (h.fair hc).1.1) fun c hc e he => ?_
  obtain ⟨hstop, hcontext, hrule⟩ := hended c hc
  obtain ⟨hstop', hcontext', hrule'⟩ := hended e he
  exact ⟨hnet.ends _ _ hstop hstop' (hrule.trans hrule'.symm), hcontext.trans hcontext'.symm⟩

end Reached

/-- The alternative that a prediction with the full stack ends with. -/
def chosen : Except Int (ConfigSet × Int × Bool) → Int
  | .error alt => alt
  | .ok (_, alt, _) => alt

section

variable (hnet : Mapped net rank ends k) (hstart : q.start = i) (hvisible : Tape.visible (T.token i) = true)
  (outer : Option Callers)
include hnet hstart hvisible

theorem giveUpFull_ok (hr : Apt net r) (hq : Equipped net q r) (hon : On T j r.stream) (hi : i ≤ j)
    (hset : OnTrack net q.decision x t b set) :
    Ends (fun _ => False) (Except.error <$> giveUp q outer set : RecM (Except Int (ConfigSet × Int × Bool))) r
      (fun res => Answered net q T x r (chosen res)) (Refused net q T r) := by
  have hgive := giveUp_ok hnet.charted.small hr hq hon hi hvisible hstart outer
    fun c hc => (fine_mem hset.fine hc).2
  refine Ends.bind (Q := Answered net q T x r) (hgive.mono ?_ ?_) fun alt r' h => .of_ok rfl h
  · rintro alt r' ⟨hroam, c, hc, rfl, hfinished⟩
    exact ⟨⟨i, hroam⟩, hset.entry.finished hc hfinished⟩
  · rintro e r' ⟨hroam, he⟩
    exact ⟨⟨i, hroam⟩, he⟩

theorem runFull_ok (fuel : Nat) (hr : Apt net r) (hq : Equipped net q r) (hon : On T j r.stream) (hi : i ≤ j)
    (hfuel : T.last < j + fuel) (hknown : Known net.states.size false r.merges)
    (hset : OnTrack net q.decision x (T.token j).type b set) :
    Ends (fun _ => False) (runFull q outer fuel set (T.token j).type) r
      (fun res => Answered net q T x r (chosen res)) (Refused net q T r) := by
  induction fuel generalizing r j set with
  | zero =>
    have := hon.le
    omega
  | succ fuel ih =>
    obtain ⟨o, r₁, hadvance, hsearched, hreach⟩ := hset.advance (q := q) hnet hr hknown
    have hroam₁ : Roamed net q T j r r₁ := hsearched.roamed hq hon
    have hapt₁ := hroam₁.apt hr
    have hhere : Roamed net q T j r₁ r₁ := .refl hroam₁.equipped hroam₁.on
    rw [runFull]
    refine .bind_ok hadvance (hroam₁.onward ?_)
    cases o with
    | none => exact giveUpFull_ok hnet hstart hvisible outer hapt₁ hroam₁.equipped hroam₁.on hi hset
    | some reach =>
      have hreached := hreach reach rfl
      refine .bind_ok (hapt₁.note rfl _) ?_
      by_cases hone : uniqueAlt reach = 0
      · rw [if_neg (by simp [hone]), hone]
        refine .bind_ok (Run.get_apply r₁) ?_
        rw [if_pos (by rw [hapt₁.mode]; decide)]
        obtain ⟨alt, hviable, hmem⟩ := Conflict.singleViable_ok hreached.ne
        refine .bind_ok (Recognizer.ofFault_ok hviable) ?_
        by_cases hzero : alt = 0
        · -- the input goes on
          have hlt : j < T.last := by
            by_contra hnot
            have hle := hon.le
            obtain ⟨alt', hviable', hne⟩ := hreached.singleViable_eof hnet hone
              ((Tape.type_eq_eof_iff hle).2 (by omega))
            rw [hviable] at hviable'
            exact hne ((Except.ok.inj hviable').symm.trans hzero)
          have hsame : { reach with uniqueAlt := 0 } = reach := by rw [← hreached.fine.unsettled.1]
          obtain ⟨r₂, hstep, hroam₂, hmerges₂⟩ := step_ok hapt₁ hroam₁.equipped hroam₁.on hlt
          have hforward : j < T.seek (j + 1) := Nat.lt_of_succ_le (Tape.le_seek hlt)
          rw [if_neg (by simp [hzero]), hsame]
          exact .bind_ok hstep (hroam₂.onward (ih (hroam₂.apt hapt₁) hroam₂.equipped hroam₂.on (by omega) (by omega)
            (by rw [hmerges₂]; exact hsearched.known) (hreached.onTrack hone _)))
        · obtain ⟨c, hc, halt⟩ := hmem hzero
          rw [if_pos hzero]
          exact .of_ok rfl ⟨⟨j, hhere⟩, show Fair net q.decision x alt from halt ▸ hreached.fair hc⟩
      · rw [if_pos hone]
        exact .of_ok rfl ⟨⟨j, hhere⟩, hreached.fair_uniqueAlt hone⟩

end

theorem Apt.noteRemark (h : Apt net r) (what : String) (set : ConfigSet) (stop : Int) :
    noteRemark q what set stop r = .ok ⟨⟩ r := h.note rfl _

theorem remarkFullContext_ok (h : Apt net r) (alts : Option (List Int)) (set : ConfigSet) (stop : Int) :
    remarkFullContext q alts set stop r = .ok ⟨⟩ r := by
  have hauto : automaton q r = .ok (autoOf q r) r := rfl
  rw [remarkFullContext, Run.bind_ok hauto, Run.bind_ok (h.noteRemark _ _ _), h.remark]

theorem remarkContextSensitivity_ok (h : Apt net r) (alt : Int) (set : ConfigSet) (stop : Int) :
    remarkContextSensitivity q alt set stop r = .ok ⟨⟩ r := by
  have hauto : automaton q r = .ok (autoOf q r) r := rfl
  rw [remarkContextSensitivity, Run.bind_ok hauto, Run.bind_ok (h.noteRemark _ _ _), h.remark]

theorem remarkAmbiguity_ok (h : Apt net r) (exact : Bool) (alts : Option (List Int)) (set : ConfigSet)
    (stop : Int) : remarkAmbiguity q exact alts set stop r = .ok ⟨⟩ r := by
  have hauto : automaton q r = .ok (autoOf q r) r := rfl
  unfold remarkAmbiguity
  rw [Run.bind_ok hauto]
  cases alts <;> exact (Run.bind_ok (h.noteRemark _ _ _)).trans (h.remark _ _ _)

theorem stepBound_lt (hon : On T i r.stream) : T.last < i + r.stepBound := by
  have := hon.toHolds.remaining
  unfold Recognizer.stepBound
  omega

theorem predictFull_ok (hnet : Mapped net rank ends k) (hstart : q.start = i)
    (hvisible : Tape.visible (T.token i) = true) (hi : i ≤ T.last) (outer : Option Callers) (hr : Apt net r)
    (hq : Equipped net q r) (hon : On T j r.stream) (hknown : Known net.states.size false r.merges)
    (hset : OnTrack net q.decision x (T.token i).type b set) :
    Ends (fun _ => False) (predictFull q outer set) r (Answered net q T x r) (Refused net q T r) := by
  obtain ⟨r₁, hseek, hroam₁, hmerges₁⟩ := seek_ok hr hq hon hvisible hi
  have hapt₁ := hroam₁.apt hr
  obtain ⟨r₂, hsymbol, hroam₂, hmerges₂⟩ :=
    onStream_roams hapt₁ hroam₁.equipped hroam₁.on.symbol_one hroam₁.on
  have hapt₂ := hroam₂.apt hapt₁
  refine .bind_ok (hr.note rfl _) (.bind_ok (by rw [hstart]; exact hseek) (.bind_ok hsymbol
    (.bind_ok (Run.get_apply r₂) ((hroam₁.trans hroam₂).onward (f := id) ?_))))
  refine (runFull_ok hnet hstart hvisible outer r₂.stepBound hapt₂ hroam₂.equipped hroam₂.on (Nat.le_refl i)
    (stepBound_lt hroam₂.on) (by rw [hmerges₂, hmerges₁]; exact hknown) hset).bind ?_
  rintro res r₃ ⟨⟨j', hroam₃⟩, hfair⟩
  have hapt₃ := hroam₃.apt hapt₂
  match res with
  | .error alt => exact .of_ok rfl ⟨⟨j', hroam₃⟩, hfair⟩
  | .ok (reach, alt, exact) =>
    refine .bind_ok (Run.get_apply r₃) ?_
    dsimp only
    split
    · exact .bind_ok (remarkContextSensitivity_ok hapt₃ _ _ _) (.of_ok rfl ⟨⟨j', hroam₃⟩, hfair⟩)
    · exact .bind_ok (remarkAmbiguity_ok hapt₃ _ _ _ _) (.of_ok rfl ⟨⟨j', hroam₃⟩, hfair⟩)

end Prediction

end Throbac
