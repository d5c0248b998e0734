import Throbac.Proofs.Parsing.Soundness
import Throbac.Proofs.Prediction.Answer

/-!
# Choosing by prediction

Predictions decide between alternatives as a parser needs it: whatever earlier predictions have left in
the caches, they give an alternative that can start with the present token, or an error that can be
reported, and leave the caches in good order.
-/
namespace Throbac

open TokenStream (On)

namespace Prediction

def Grown (net : Network) : CacheCondition := fun automata _ =>
  automata.size = net.decisions.size ∧
    ∀ (d : Nat) a, automata[d]? = some a → Cached net d a ∧ (Begun a ∨ a.states = #[]) ∧
      a.byPrecedence = (net.state a.origin).precedenceDecision

theorem grown_freshAutomata {net : Network}
    (hkind : ∀ n ∈ net.decisions, (net.state n).precedenceDecision = true → (net.state n).kind = .starLoopEntry)
    (hopens : ∀ {n d i : Nat} {e : Edge} {xs : List Int}, net.decisions[d]? = some n →
      (net.edges n)[i]? = some e → Grammar.opening d (i + 1) = some xs →
        (net.state n).precedenceDecision = false) :
    Grown net (Recognizer.freshAutomata net) [] := by
  refine ⟨by simp [Recognizer.freshAutomata], fun d a ha => ?_⟩
  simp only [Recognizer.freshAutomata, Array.getElem?_mapIdx, Option.map_eq_some_iff] at ha
  obtain ⟨n, hn, rfl⟩ := ha
  refine ⟨cached_ofDecision (fun hby => ⟨⟨hkind n (Array.mem_of_getElem? hn) hby, hby⟩,
    fun alt hle hwidth => ?_⟩) ?_, .inr rfl, by rw [Automaton.ofDecision]⟩
  · by_contra hne
    obtain ⟨xs, hxs⟩ := Option.ne_none_iff_exists'.1 hne
    rw [Network.width, Int.toNat_natCast, Array.getD_eq_getD_getElem?, hn, Option.getD_some] at hwidth
    have hlt : (alt - 1).toNat < (net.edges n).size := by omega
    have := hopens hn (Array.getElem?_eq_getElem hlt)
      (by rw [show (((alt - 1).toNat : Nat) : Int) + 1 = alt by omega]; exact hxs)
    cases this.symm.trans hby
  · rw [Array.getD_eq_getD_getElem?, hn, Option.getD_some]

theorem grown_fresh : Grown Grammar.parserNetwork (Recognizer.freshAutomata Grammar.parserNetwork) [] :=
  grown_freshAutomata Grammar.parserNetwork_kind fun hd he hxs => (Grammar.parserNetwork_opens hd he hxs).1

end Prediction

theorem Ends.onCore {α : Type} {m : RecM α} {F : Parser → Prop} {Q : α → Recognizer → Prop}
    {E : RecognitionError → Recognizer → Prop} (p : Parser) (h : Ends (fun _ => False) m p.core Q E) :
    Ends F (Parser.onCore m) p (fun a p' => ∃ r, p' = { p with core := r } ∧ Q a r)
      fun e p' => ∃ r, p' = { p with core := r } ∧ E e r := by
  rcases h.cases with ⟨a, r, hm, hQ⟩ | ⟨e, r, hm, hE⟩ | ⟨e, r, hm, hne, hf⟩
  · exact .of_ok (by rw [Parser.onCore, hm]) ⟨r, rfl, hQ⟩
  · exact .of_recognition (by rw [Parser.onCore, hm]) ⟨r, rfl, hE⟩
  · exact hf.elim

namespace Parser

open Prediction

variable {T : Tape} {p : Parser}

theorem Ready.apt (h : Ready R p) : Apt Grammar.parserNetwork p.core := by
  refine ⟨⟨network_eq h.spec, h.watch, fun b => ⟨fun r n c => ?_, fun n => ?_⟩⟩, h.connected, h.mode, h.remarks,
    h.diagnosis⟩
  · refine ⟨true, ?_⟩
    rw [Recognizer.oracle, h.spec]
    rfl
  · obtain ⟨q, qs, hqs⟩ := List.exists_cons_of_ne_nil h.precedences.1
    exact ⟨decide (n ≥ q), by rw [Recognizer.oracle, hqs]⟩

theorem Good.predicted (h : Good (Grown Grammar.parserNetwork) T p) {q : Question} {r : Recognizer}
    (hroam : Roamed Grammar.parserNetwork q T p.place p.core r) (hmerges : r.merges = none)
    (hbegun : Begun (autoOf q r)) : Still (Grown Grammar.parserNetwork) T p { p with core := r } := by
  have hsame := hroam.same
  obtain ⟨rs, hrs, hsilent⟩ := hroam.reports
  have hcaches : Grown Grammar.parserNetwork r.automata r.contexts := by
    rw [hsame]
    refine ⟨by simpa using h.caches.1, fun d a ha => ?_⟩
    dsimp only at ha
    rw [Array.set!_eq_setIfInBounds, Array.getElem?_setIfInBounds] at ha
    split at ha
    · next hd =>
      obtain rfl := hd
      split at ha
      · next hlt =>
        obtain rfl := Option.some.inj ha
        have hold := (h.caches.2 _ (autoOf q p.core) (by
          rw [autoOf, Array.getD_eq_getD_getElem?, Array.getElem?_eq_getElem hlt, Option.getD_some])).2.2
        exact ⟨hroam.equipped.cached, .inl hbegun, by rw [hroam.grew.byPrecedence, hroam.grew.origin, hold]⟩
      · cases ha
    · exact h.caches.2 d a ha
  have hready : Ready (Grown Grammar.parserNetwork) { p with core := r } := by
    refine ⟨?_, hcaches, hmerges, ?_, ?_, h.rules, ?_⟩
    · rw [hsame]
      exact { h.toPlain with }
    · rw [hsame]
      exact h.precedences
    · rw [hsame]
      exact h.looks
    · rw [hsame]
      exact h.state
  exact ⟨hready, hroam.on, rfl, by rw [hsame], by rw [hsame], rfl, rfl, rfl, rs, hrs, hsilent⟩

def question (p : Parser) (k : Nat) : Question :=
  { decision := k, start := p.place, asked := some p.callers, around := p.callers }

theorem Good.posed (h : Good (Grown Grammar.parserNetwork) T p) {k : Nat}
    (hk : k < Grammar.parserNetwork.decisions.size) :
    Posed Grammar.parserNetwork (p.question k) T p.place p.core ∧
      (Begun (autoOf (p.question k) p.core) ∨ (autoOf (p.question k) p.core).states = #[]) ∧
      (autoOf (p.question k) p.core).byPrecedence =
        (Grammar.parserNetwork.state (autoOf (p.question k) p.core).origin).precedenceDecision := by
  have hlt : k < p.core.automata.size := by rw [h.caches.1]; exact hk
  have hauto : autoOf (p.question k) p.core = p.core.automata[k] := by
    rw [autoOf, question, Array.getD_eq_getD_getElem?, Array.getElem?_eq_getElem hlt, Option.getD_some]
  obtain ⟨hcached, hbegun⟩ := h.caches.2 k _ (Array.getElem?_eq_getElem hlt)
  rw [← hauto] at hcached hbegun
  refine ⟨⟨h.toReady.apt, ⟨hlt, hcached⟩, h.on, rfl, hk, fun i e xs he hxs => ?_⟩, hbegun⟩
  rw [hcached.origin, Array.getD_eq_getD_getElem?, Array.getElem?_eq_getElem hk, Option.getD_some] at he
  exact (Grammar.parserNetwork_opens (Array.getElem?_eq_getElem hk) he hxs).2

/-- A prediction looks at the input and gives an alternative that can start with the present token, or
an error that can be reported. -/
theorem predict_ends {F : Parser → Prop} {d : Int} {rule : Nat} (hd : (d, rule) ∈ predictedDecisions)
    (h : Good (Grown Grammar.parserNetwork) T p) :
    Ends F (Rule.predict d) p
      (fun alt p' => Still (Grown Grammar.parserNetwork) T p p' ∧
        (1 ≤ alt ∧ alt ≤ Grammar.parserNetwork.width d) ∧
        ∀ xs, Grammar.opening d alt = some xs → (T.token p.place).type ∈ xs)
      fun e p' => Still (Grown Grammar.parserNetwork) T p p' ∧ Sensible T e := by
  obtain ⟨k, rfl, hk⟩ : ∃ k : Nat, d = k ∧ k < Grammar.parserNetwork.decisions.size := by
    rw [Grammar.parserNetwork_decisions]
    simp only [predictedDecisions, List.mem_cons, Prod.mk.injEq, List.not_mem_nil, or_false] at hd
    rcases hd with ⟨rfl, -⟩ | ⟨rfl, -⟩ | ⟨rfl, -⟩ | ⟨rfl, -⟩ | ⟨rfl, -⟩
    exacts [⟨0, rfl, by decide⟩, ⟨4, rfl, by decide⟩, ⟨8, rfl, by decide⟩, ⟨10, rfl, by decide⟩, ⟨11, rfl, by decide⟩]
  obtain ⟨hq, hbegun, -⟩ := h.posed hk
  obtain ⟨γ, hcallers, hγ⟩ := h.invoked.ofStack
  have hpredict := predict_ok Grammar.parserNetwork_mapped hq rfl hbegun hcallers hγ h.merges
  refine .bind_ok (Run.get_apply p) (Ends.mono (hpredict.onCore p) ?_ ?_)
  · rintro alt _ ⟨r, rfl, hroam, hmerges, hbegun', hfair⟩
    exact ⟨h.predicted hroam hmerges hbegun', hfair.1, hfair.2⟩
  · rintro e _ ⟨r, rfl, hroam, hmerges, hbegun', he⟩
    exact ⟨h.predicted hroam hmerges hbegun', he⟩

theorem chooses_predict (T : Tape) : Chooses (Grown Grammar.parserNetwork) T False Rule.predict := by
  intro d rule p hd h _
  exact (predict_ends hd h).mono (fun _ _ hq => ⟨hq.1, hq.2.1, fun _ => hq.2.2⟩)
    fun _ _ hf => ⟨hf.1.onward_still h, hf.2⟩

end Parser

end Throbac
