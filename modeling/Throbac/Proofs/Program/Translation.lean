import Throbac.Program.Translate
import Throbac.Proofs.Parsing.Conservation
import Throbac.Proofs.Program.Trees

/-!
# The outcomes of a translation

A source is rejected for its syntax errors, or for a numeral that is too long, or translated. In a
walk of the tree each phrase is left after its parts, and each has a text of its own.
-/
namespace Throbac

namespace ParseTree

mutual

def phrases : ParseTree → List ParseTree
  | leaf .. => []
  | node i cs => phrasesAll cs ++ [node i cs]

def phrasesAll : List ParseTree → List ParseTree
  | [] => []
  | c :: cs => c.phrases ++ phrasesAll cs

end

theorem phrasesAll_eq (cs : List ParseTree) : phrasesAll cs = cs.flatMap phrases := by
  induction cs with
  | nil => rfl
  | cons c cs ih => rw [phrasesAll, ih, List.flatMap_cons]

theorem mem_phrases_node {i : NodeInfo} {cs : List ParseTree} {s : ParseTree} :
    s ∈ (node i cs).phrases ↔ (∃ c ∈ cs, s ∈ c.phrases) ∨ s = node i cs := by
  rw [phrases, phrasesAll_eq, List.mem_append, List.mem_flatMap, List.mem_singleton]

end ParseTree

def Event.left? : Event → Option (NodeKind × String)
  | .exit k text => some (k, text)
  | _ => none

namespace ParseTree

variable {i : NodeInfo} {cs : List ParseTree} {t s : ParseTree}

def Named (t : ParseTree) (name : NodeKind × String) : Prop :=
  t.kind? = some name.1 ∧ t.text = .ok (some name.2)

theorem exists_textAll (h : ∀ c ∈ cs, ∃ s, c.text = .ok (some s)) : ∃ s, textAll cs = .ok s := by
  induction cs with
  | nil => exact ⟨"", rfl⟩
  | cons c cs ih =>
    obtain ⟨⟨s, hs⟩, hcs⟩ := List.forall_mem_cons.1 h
    obtain ⟨s', hs'⟩ := ih hcs
    exact ⟨s ++ s', by rw [textAll, hs, hs']; rfl⟩

theorem exists_text (h : Derived t) (hw : t.Worded) : ∃ s, t.text = .ok (some s) := by
  induction h with
  | leaf x =>
    obtain ⟨s, hs, _⟩ := hw.leaf
    exact ⟨s, by rw [text, hs]⟩
  | @node i is cs _ _ _ _ ih =>
    obtain ⟨s, hs⟩ := exists_textAll fun c hc => ih c hc (hw.part c hc)
    exact ⟨s, by rw [text, hs]; rfl⟩

theorem exists_eventsAll (h : ∀ c ∈ cs, ∃ es, c.events = .ok es ∧
    List.Forall₂ Named c.phrases (es.filterMap Event.left?)) : ∃ es, eventsAll cs = .ok es ∧
    List.Forall₂ Named (phrasesAll cs) (es.filterMap Event.left?) := by
  induction cs with
  | nil => exact ⟨[], rfl, .nil⟩
  | cons c cs ih =>
    obtain ⟨⟨es, hes, hnamed⟩, hcs⟩ := List.forall_mem_cons.1 h
    obtain ⟨es', hes', hnamed'⟩ := ih hcs
    refine ⟨es ++ es', by rw [eventsAll, hes, hes']; rfl, ?_⟩
    rw [phrasesAll, List.filterMap_append]
    exact List.rel_append hnamed hnamed'

theorem exists_events (h : Derived t) (hw : t.Worded) : ∃ es, t.events = .ok es ∧
    List.Forall₂ Named t.phrases (es.filterMap Event.left?) := by
  induction h with
  | leaf x => exact ⟨_, rfl, .nil⟩
  | @node i is cs hkind _ _ hall ih =>
    obtain ⟨es, hes, hnamed⟩ := exists_eventsAll fun c hc => ih c hc (hw.part c hc)
    obtain ⟨s, hs⟩ := exists_textAll fun c hc => exists_text (hall c hc) (hw.part c hc)
    have hown : i.kind.isGeneral = false := by
      cases hk : i.kind <;> rw [hk] at hkind <;> first | rfl | cases hkind
    refine ⟨_, by rw [events, hs, hes, hown]; rfl, ?_⟩
    simp only [Bool.not_false, if_true, List.filterMap_append, List.filterMap_cons, Event.left?,
      List.filterMap_nil, List.nil_append, List.append_nil, List.cons_append]
    exact List.rel_append hnamed (.cons ⟨rfl, by rw [text, hs]; rfl⟩ .nil)

theorem rule?_of_mem_phrases (h : Derived t) (hs : s ∈ t.phrases) : ∃ n, s.rule? = some n := by
  induction h with
  | leaf => cases hs
  | node _ _ _ _ ih =>
    rcases mem_phrases_node.1 hs with ⟨c, hc, hs⟩ | rfl
    · exact ih c hc hs
    · exact ⟨_, rfl⟩

theorem of_mem_phrases (h : Derived t) (hw : t.Worded) (hs : s ∈ t.phrases) :
    Derived s ∧ s.Worded ∧ s.numerals ⊆ t.numerals := by
  induction h with
  | leaf => cases hs
  | node hkind hparts hfailure hall ih =>
    rcases mem_phrases_node.1 hs with ⟨c, hc, hs⟩ | rfl
    · obtain ⟨hderived, hworded, hsub⟩ := ih c hc (hw.part c hc) hs
      refine ⟨hderived, hworded, fun n hn => ?_⟩
      rw [numerals_node]
      exact List.mem_flatMap_of_mem hc (hsub hn)
    · exact ⟨.node hkind hparts hfailure hall, hw, fun _ h => h⟩

end ParseTree

open ParseTree
open Lexicon (Cuts tape Piece)

variable {t : ParseTree}

theorem treeToC_cases (h : Derived t) (hw : t.Worded) {k : Int} (hr : t.rule? = some k) :
    (∃ c, treeToC t = .ok c) ∧ (∀ n ∈ t.numerals, n.Short) ∨
      ∃ n ∈ t.numerals, ¬ n.Short ∧
        treeToC t = .error (.interrupted (.fault (.tooManyDigits n.digits.length))) := by
  obtain ⟨p, hp, _, _, hn⟩ := exists_phrase h hw hr
  have htext : treeToC t = p.toC.mapError fun f => .interrupted (.fault f) := by rw [treeToC, hp]
  rw [htext, ← hn]
  rcases p.renders with ⟨⟨c, hc⟩, hshort⟩ | ⟨n, hn, hlong, he⟩
  · exact .inl ⟨⟨c, by rw [hc]; rfl⟩, hshort⟩
  · exact .inr ⟨n, hn, hlong, by rw [he]; rfl⟩

theorem exists_mapM_treeToC {ss : List ParseTree} (h : ∀ s ∈ ss, ∃ c, treeToC s = .ok c) :
    ∃ cs, ss.mapM treeToC = .ok cs := by
  induction ss with
  | nil => exact ⟨[], rfl⟩
  | cons s ss ih =>
    obtain ⟨⟨c, hc⟩, hss⟩ := List.forall_mem_cons.1 h
    obtain ⟨cs, hcs⟩ := ih hss
    exact ⟨c :: cs, by rw [List.mapM_cons, hc, hcs]; rfl⟩

theorem exists_texts (h : Derived t) (hw : t.Worded) {n : Int} (hr : t.rule? = some n)
    (hshort : ∀ n ∈ t.numerals, n.Short) :
    ∃ cs c, treeToC t = .ok c ∧ t.phrases.mapM treeToC = .ok (cs ++ [c]) := by
  have hall : ∀ s ∈ t.phrases, ∃ c, treeToC s = .ok c := by
    intro s hs
    obtain ⟨hderived, hworded, hsub⟩ := of_mem_phrases h hw hs
    obtain ⟨n, hn⟩ := rule?_of_mem_phrases h hs
    rcases treeToC_cases hderived hworded hn with ⟨hc, _⟩ | ⟨n, hn, hlong, _⟩
    · exact hc
    · exact absurd (hshort n (hsub hn)) hlong
  obtain ⟨i, ds, rfl⟩ := exists_node hr
  rw [phrases] at hall ⊢
  obtain ⟨cs, hcs⟩ := exists_mapM_treeToC fun s hs => hall s (List.mem_append_left _ hs)
  obtain ⟨c, hc⟩ := hall (node i ds) (by simp)
  exact ⟨cs, c, hc, by rw [List.mapM_append, hcs, List.mapM_cons, hc]; rfl⟩

namespace Grammar

variable {src : String} {ps : List Piece}

theorem worded_of_passed (hcuts : Cuts 0 src.toList ps) {R : CacheCondition} {n : Nat} {p p' : Parser}
    (h : Parser.Passed R (tape src.toList hcuts) n ((tape src.toList hcuts).seek 0) p (some t) p')
    (hclean : p'.core.reports = #[]) : t.Worded := by
  obtain ⟨_, _, hleaves⟩ := h.sound hclean
  intro x hx
  rw [hleaves] at hx
  obtain ⟨k, hk⟩ := List.mem_iff_getElem?.1 (List.mem_of_mem_take (List.mem_of_mem_filter hx))
  have hlt := (List.getElem?_eq_some_iff.1 hk).1
  rw [Tape.length_tokens] at hlt
  rw [Tape.tokens_getElem? (by omega)] at hk
  rw [← Option.some.inj hk]
  exact Lexicon.worded_token hcuts (by omega)

theorem translateAfter_of_clean {old : Option Parser} {rule : String} {p : Parser}
    (hparse : parse rule none (parserAfter old src) = .ok t p) (hclean : p.core.reports = #[]) :
    parseClean (parserAfter old src) rule = .ok t ∧ translateAfter old src rule = (treeToC t, p) := by
  have htree : cleanTree (.ok t p) = .ok t := by rw [cleanTree, if_pos (by rw [hclean]; rfl)]
  rw [parseClean, translateAfter, hparse, htree]
  exact ⟨rfl, rfl⟩

/-- Whatever was translated before, the translation of any source by any rule comes to an end in one of
three ways. If the parser has something to report, all of it is given. Otherwise, if the tree has a
numeral of too many digits, one such numeral is named. Otherwise the text of the tree is given: a walk of
the tree leaves every phrase once and after its parts, and in this order each phrase has its text, the
last that of the whole. -/
theorem translate_cases (history : List (String × String)) (src : String) {rule : String}
    (hrule : rule ∈ ruleNames) :
    ∃ t p, parse rule none (parserAfter (learnedFrom history) src) = .ok t p ∧
      ((p.core.reports ≠ #[] ∧ translateAfter (learnedFrom history) src rule =
          (.error (.syntaxErrors ⟨p.core.reports.toList⟩ t), p)) ∨
        (p.core.reports = #[] ∧ ∃ n ∈ t.numerals, ¬ n.Short ∧
          translateAfter (learnedFrom history) src rule =
            (.error (.interrupted (.fault (.tooManyDigits n.digits.length))), p)) ∨
        (p.core.reports = #[] ∧ (∀ n ∈ t.numerals, n.Short) ∧
          ∃ c cs es, translateAfter (learnedFrom history) src rule = (.ok c, p) ∧
            t.phrases.mapM treeToC = .ok (cs ++ [c]) ∧
            t.events = .ok es ∧ List.Forall₂ Named t.phrases (es.filterMap Event.left?))) := by
  obtain ⟨ps, hcuts⟩ := exists_cuts_lexerOf src
  obtain ⟨n, hn⟩ := exists_idxOf hrule
  obtain ⟨t, p, hparse, hpassed⟩ := exists_passed (learned_learnedFrom history) hcuts hn
  refine ⟨t, p, hparse, ?_⟩
  by_cases hclean : p.core.reports = #[]
  · obtain ⟨hr, hderived, _⟩ := hpassed.sound hclean
    have hw := worded_of_passed hcuts hpassed hclean
    rw [(translateAfter_of_clean hparse hclean).2]
    rcases treeToC_cases hderived hw hr with ⟨_, hshort⟩ | ⟨n, hn, hlong, hc⟩
    · obtain ⟨cs, c, hc, hcs⟩ := exists_texts hderived hw hr hshort
      obtain ⟨es, hes, hleft⟩ := exists_events hderived hw
      exact .inr (.inr ⟨hclean, hshort, c, cs, es, by rw [hc], hcs, hes, hleft⟩)
    · exact .inr (.inl ⟨hclean, n, hn, hlong, by rw [hc]⟩)
  · refine .inl ⟨hclean, ?_⟩
    rw [translateAfter, hparse, cleanTree, if_neg (by simpa using hclean)]
    rfl

/-- Whether a parser reported nothing and gave a canonical tree with the words, whose phrases have the
texts, the last of them that of the tree. -/
def readsAs (words : List Int) (cs : List String) (c : String) (t : ParseTree) (p : Parser) : Bool :=
  p.core.reports.isEmpty && decide t.Canonical && t.leaves.map Token.type == words &&
    (t.phrases.mapM treeToC).toOption == some (cs ++ [c]) && (treeToC t).toOption == some c

theorem eq_ok_of_toOption {ε α : Type} {x : Except ε α} {a : α} (h : x.toOption = some a) : x = .ok a := by
  cases x with
  | error e => cases h
  | ok b => exact congrArg Except.ok (Option.some.inj h)

theorem of_readsAs {old : Option Parser} {rule c : String} {words : List Int} {cs : List String} {p : Parser}
    (hparse : parse rule none (parserAfter old src) = .ok t p) (h : readsAs words cs c t p = true) :
    p.core.reports = #[] ∧ t.Canonical ∧ t.leaves.map Token.type = words ∧
      t.phrases.mapM treeToC = .ok (cs ++ [c]) ∧ parseClean (parserAfter old src) rule = .ok t ∧
      translateAfter old src rule = (.ok c, p) := by
  simp only [readsAs, Bool.and_eq_true, beq_iff_eq, Array.isEmpty_iff, decide_eq_true_eq] at h
  obtain ⟨⟨⟨⟨hclean, hcanonical⟩, hwords⟩, htexts⟩, htext⟩ := h
  obtain ⟨hparsed, htranslated⟩ := translateAfter_of_clean hparse hclean
  exact ⟨hclean, hcanonical, hwords, eq_ok_of_toOption htexts, hparsed,
    by rw [htranslated, eq_ok_of_toOption htext]⟩

/-- A negation in each of its two words, the second read with what was learned from the first. -/
theorem exists_negations :
    ∃ t₁ p₁ t₂ p₂, parse "expr" none (parserAfter (learnedFrom []) "NI a") = .ok t₁ p₁ ∧
      readsAs [19, 37] ["a"] "(-a)" t₁ p₁ = true ∧
      parse "expr" none (parserAfter (learnedFrom [("NI a", "expr")]) "NEGANS a") = .ok t₂ p₂ ∧
      readsAs [20, 37] ["a"] "(-a)" t₂ p₂ = true := by
  have hread : Run.gives (fun t p => readsAs [19, 37] ["a"] "(-a)" t p &&
        Run.gives (readsAs [20, 37] ["a"] "(-a)") (parse "expr" none (parserAfter (some p) "NEGANS a")))
      (parse "expr" none (parserAfter none "NI a")) = true := by
    decide +kernel
  obtain ⟨t₁, p₁, hparse₁, hread⟩ := Run.exists_of_gives hread
  obtain ⟨hread₁, hread⟩ := Bool.and_eq_true_iff.1 hread
  obtain ⟨t₂, p₂, hparse₂, hread₂⟩ := Run.exists_of_gives hread
  obtain ⟨_, _, _, _, _, htranslate⟩ := of_readsAs hparse₁ hread₁
  have hlearned : learnedFrom [("NI a", "expr")] = some p₁ := by
    rw [learnedFrom, List.foldl_cons, List.foldl_nil, htranslate]
  exact ⟨t₁, p₁, t₂, p₂, hparse₁, hread₁, hlearned ▸ hparse₂, hread₂⟩

/-- After another source, a negation is translated. A walk leaves the name first and then its negation,
and these have the texts. -/
theorem translate_cases_negation :
    ∃ t p es, parse "expr" none (parserAfter (learnedFrom [("NI a", "expr")]) "NEGANS a") = .ok t p ∧
      p.core.reports = #[] ∧
      translateAfter (learnedFrom [("NI a", "expr")]) "NEGANS a" "expr" = (.ok "(-a)", p) ∧
      t.phrases.mapM treeToC = .ok ["a", "(-a)"] ∧ t.events = .ok es ∧
      List.Forall₂ Named t.phrases (es.filterMap Event.left?) := by
  obtain ⟨_, _, t, p, _, _, hparse, hread⟩ := exists_negations
  obtain ⟨hclean, _, _, htexts, _, htranslated⟩ := of_readsAs hparse hread
  have hexpr : "expr" ∈ ruleNames := by simp [ruleNames]
  obtain ⟨_, _, hparse', hcases⟩ := translate_cases [("NI a", "expr")] "NEGANS a" hexpr
  obtain ⟨rfl, rfl⟩ := EStateM.Result.ok.inj (hparse.symm.trans hparse')
  rcases hcases with ⟨hne, _⟩ | ⟨_, _, _, _, hlong⟩ | ⟨_, _, _, _, es, _, _, hes, hleft⟩
  · exact absurd hclean hne
  · rw [htranslated] at hlong
    cases (Prod.mk.inj hlong).1
  · exact ⟨t, p, es, hparse, hclean, htranslated, htexts, hes, hleft⟩

end Grammar

end Throbac
