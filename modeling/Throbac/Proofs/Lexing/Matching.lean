import Throbac.Lexing.Lexer
import Throbac.Proofs.Lexing.Spelling

/-!
# What the sets of a lexer tell

If a network spells the rules of the lexical grammar, one branch of its start after the other, then
the set behind a text tells all that matters of it: it is empty exactly if no rule can be extended
that far, and its first configuration at the end of a rule belongs to the first rule that matches.
-/
namespace Throbac

/-- What a lexer does with a match of the given fate. -/
def Fate.actions : Fate → Option ActionList
  | .keep => none
  | .hide => some [⟨.channel 1, 1⟩]
  | .drop => some [⟨.skip, 0⟩]

namespace Lexing

open Place (put)

/-- Whether a configuration stands at the end of an outermost rule. -/
structure Final (net : Network) (c : LexConfig) : Prop where
  stop : (net.state c.state).isRuleStop = true
  context : c.context = .empty

/-- The end of the rule behind a place, with the number of the action on the way there. -/
def finish (look : Nat → NetState) (p : Place) : Option (Nat × Option Int) :=
  let (n, rets) := settle look p
  if rets ≠ [] then none
  else if (look n).isRuleStop then some (n, none)
  else match (look n).edges.toList with
    | [⟨t, .action _ i _⟩] =>
      let (m, rets) := settle look (t, [])
      if rets = [] ∧ (look m).isRuleStop then some (m, some i) else none
    | _ => none

/-- Whether the network spells a rule behind an edge. -/
def spellsRule (net : Network) (look : Nat → NetState) (e : Edge) (r : LexRule) : Bool :=
  match (walk look r.pattern [(e.target, [])]).bind (finish look) with
  | none => false
  | some (n, i) =>
    (i.bind (withAction net none)) == r.fate.actions &&
      (match Sequence.arrayAt (net.tokenTypes.getD #[]) (look n).rule with
      | .ok t => t == r.symbol
      | .error _ => false)

/-- Whether the branches of a state spell the rules in their order. -/
def spellsRules (net : Network) (look : Nat → NetState) (n : Nat) (rs : List LexRule) : Bool :=
  (look n).edges.toList.length == rs.length &&
    ((look n).edges.toList.zip rs).all fun (e, r) => spellsRule net look e r

variable {net : Network} {rank : Nat → Nat} {c : LexConfig}

theorem Final.eq_of_path (hp : Plain net rank) (hc : Final net c) {u : List Char} {x : LexConfig}
    (h : Path net c u x) : u = [] ∧ x = c := by
  rcases Path.unfold_iff.1 h with ⟨rfl, rfl⟩ | ⟨d, hd, _⟩ | ⟨a, v, _, d, hd, _⟩
  · exact ⟨rfl, rfl⟩
  · simp [slips, hc.stop, hc.context] at hd
  · simp [reads_of_stop hp hc.stop] at hd

/-- Behind a place from which the end of the rule is near nothing is read, and one final
configuration is reached. -/
structure Ends (net : Network) (c d : LexConfig) : Prop where
  final : Final net d
  path : Path net c [] d
  unique : ∀ u x, Path net c u x → u = [] ∧ (Final net x → x = d)

theorem Ends.of_final (hp : Plain net rank) (hc : Final net c) : Ends net c c :=
  ⟨hc, .refl c, fun _ _ h => ⟨(hc.eq_of_path hp h).1, fun _ => (hc.eq_of_path hp h).2⟩⟩

theorem Ends.of_slides {d x : LexConfig} (hs : Slides net c x) (hc : ¬ Final net c)
    (h : Ends net x d) : Ends net c d where
  final := h.final
  path := hs.path.trans h.path
  unique u y hy := by
    rcases hs.of_path hy with ⟨rfl, rfl⟩ | hy
    · exact ⟨rfl, fun hf => absurd hf hc⟩
    · exact h.unique u y hy

theorem Ends.of_settle (hp : Plain net rank) (hc : c.context ≠ .null) {p : Place} {d : LexConfig}
    (h : Ends net (put c (settle net.state p)) d) : Ends net (put c p) d where
  final := h.final
  path := (path_settle hp hc p).trans h.path
  unique u y hy := by
    rcases settle_of_path hp hc hy with ⟨rfl, hz⟩ | hy
    · refine ⟨rfl, fun hf => ?_⟩
      obtain ⟨_, heq⟩ := hf.eq_of_path hp hz
      exact (h.unique [] y (heq ▸ .refl _)).2 hf
    · exact h.unique u y hy

theorem finish_ends (hp : Plain net rank) (hc : c.context = .empty) (ha : c.actions = none)
    {p : Place} {n : Nat} {j : Option Int} (h : finish net.state p = some (n, j)) :
    Ends net (put c p) { c with state := n, actions := j.bind (withAction net none) } := by
  have hnull : c.context ≠ .null := by simp [hc]
  refine .of_settle hp hnull ?_
  unfold finish at h
  generalize settle net.state p = q at h ⊢
  obtain ⟨m, rets⟩ := q
  simp only at h
  split at h
  · contradiction
  · rename_i hr
    obtain rfl : rets = [] := by simpa using hr
    split at h
    · rename_i hs
      obtain ⟨rfl, rfl⟩ : m = n ∧ none = j := by simpa using h
      have : put c (m, []) = { c with state := m, actions := none } := by simp [put, ← ha]
      rw [this]
      exact .of_final hp ⟨hs, hc⟩
    · rename_i hs
      split at h
      · rename_i t r i b he
        split at h
        · rename_i hk
          obtain ⟨hk, hstop⟩ := hk
          obtain ⟨rfl, rfl⟩ : (settle net.state (t, [])).1 = n ∧ some i = j := by simpa using h
          have hslide : Slides net (put c (m, []))
              (put { c with actions := withAction net none i } (t, [])) := by
            refine ⟨?_, fun t => ?_⟩
            · simp [slips, put, hs, Network.edges, he, slip, hc, ha]
            · simp [reads, put, Network.edges, he, Label.reads]
          have hnull' : ({ c with actions := withAction net none i } : LexConfig).context ≠ .null :=
            hnull
          refine .of_slides hslide (fun hf => hs hf.stop) (.of_settle hp hnull' ?_)
          have : put { c with actions := withAction net none i } (settle net.state (t, [])) =
              { c with state := (settle net.state (t, [])).1, actions := withAction net none i } := by
            simp [put, hk]
          rw [this]
          exact .of_final hp ⟨hstop, hc⟩
        · contradiction
      · contradiction

/-- The final configuration of the rule with the given number. -/
def finalOf (i : Nat) (n : Nat) (r : LexRule) : LexConfig :=
  { state := n, alt := i + 1, context := .empty, actions := r.fate.actions }

/-- What the branch of a rule tells: the paths along it spell the words of the rule, and where one is
complete the configuration says which rule it was. -/
structure Branch (net : Network) (i : Nat) (o : LexConfig) (r : LexRule) : Prop where
  alt : o.alt = i + 1
  viable : ∀ u x, Path net o u x → ∃ v, r.pattern.Matches (u ++ v)
  reached : ∀ u v, r.pattern.Matches (u ++ v) → ∃ x, waits net x = true ∧ Path net o u x
  finals : ∃ n, Sequence.arrayAt (net.tokenTypes.getD #[]) (net.state n).rule = .ok r.symbol ∧
    ∀ u f, Path net o u f ∧ Final net f ↔ r.pattern.Matches u ∧ f = finalOf i n r

theorem Final.waits (h : Final net c) : waits net c = true := by
  simp [Lexing.waits, h.stop, h.context]

theorem branch_of_spellsRule (hp : Plain net rank) {e : Edge} {i : Nat} {r : LexRule}
    (h : spellsRule net net.state e r = true) :
    Branch net i { state := e.target, alt := i + 1, context := .empty } r := by
  unfold spellsRule at h
  split at h
  · contradiction
  · rename_i n j hw
    obtain ⟨q, hwalk, hfin⟩ := Option.bind_eq_some_iff.1 hw
    obtain ⟨has, htype⟩ := Bool.and_eq_true_iff.1 h
    set o : LexConfig := { state := e.target, alt := i + 1, context := .empty } with ho
    have hput : put o (e.target, []) = o := rfl
    have hs : Spells net o r.pattern [(e.target, [])] q := walk_spells hp (by simp [ho]) hwalk
    have he : Ends net (put o q) (finalOf i n r) := by
      have := finish_ends (c := o) hp rfl rfl hfin
      rwa [eq_of_beq has] at this
    have hpath : ∀ u, r.pattern.Matches u → Path net o u (finalOf i n r) := by
      intro u hu
      have h := (hs.path hu).trans he.path
      rwa [List.append_nil] at h
    have halong : ∀ u x, Path net o u x → Along net r.pattern u x (put o q) :=
      hs.complete _ (List.mem_singleton_self _)
    refine ⟨rfl, fun u x hx => ?_, fun u v hv => ?_, n, ?_, fun u f => ⟨?_, ?_⟩⟩
    · rcases halong u x hx with ⟨v, hv, _⟩ | ⟨v, w, rfl, hv, hx⟩
      · exact ⟨v, hv⟩
      · obtain rfl := (he.unique w x hx).1
        exact ⟨[], by simpa using hv⟩
    · exact (hpath _ hv).exists_waits hp he.final.waits
    · split at htype
      · rename_i t ht
        rw [ht, eq_of_beq htype]
      · contradiction
    · rintro ⟨hf, hfinal⟩
      rcases halong u f hf with ⟨v, hv, hx⟩ | ⟨v, w, rfl, hv, hx⟩
      · obtain ⟨rfl, hq⟩ := hfinal.eq_of_path hp hx
        refine ⟨by simpa using hv, (he.unique [] f ?_).2 hfinal⟩
        rw [hq]
        exact .refl f
      · obtain ⟨rfl, heq⟩ := he.unique w f hx
        exact ⟨by simpa using hv, heq hfinal⟩
    · rintro ⟨hu, rfl⟩
      exact ⟨hpath u hu, he.final⟩

theorem spellsRules_iff {n : Nat} {rs : List LexRule} :
    spellsRules net net.state n rs = true ↔ (net.edges n).toList.length = rs.length ∧
      ∀ (i : Nat) e r, (net.edges n).toList[i]? = some e → rs[i]? = some r →
        spellsRule net net.state e r = true := by
  simp only [spellsRules, Bool.and_eq_true, beq_iff_eq, List.all_eq_true, Prod.forall]
  refine and_congr Iff.rfl ⟨fun h i e r he hr => h e r ?_, fun h e r hm => ?_⟩
  · exact List.mem_iff_getElem?.2 ⟨i, List.getElem?_zip_eq_some.2 ⟨he, hr⟩⟩
  · obtain ⟨i, hi⟩ := List.mem_iff_getElem?.1 hm
    obtain ⟨he, hr⟩ := List.getElem?_zip_eq_some.1 hi
    exact h i e r he hr

section Rules

variable {n : Nat} {rs : List LexRule} (hp : Plain net rank)
  (hs : spellsRules net net.state n rs = true)
include hp hs

theorem exists_rule {o : LexConfig} (ho : o ∈ origins net n) :
    ∃ i r, rs[i]? = some r ∧ Branch net i o r := by
  obtain ⟨hlen, hall⟩ := spellsRules_iff.1 hs
  obtain ⟨⟨e, i⟩, hm, rfl⟩ := List.mem_map.1 ho
  have he := List.mem_zipIdx_iff_getElem?.1 hm
  have hi : i < rs.length := by
    rw [← hlen]
    exact (List.getElem?_eq_some_iff.1 he).1
  have hr := List.getElem?_eq_getElem hi
  exact ⟨i, rs[i], hr, branch_of_spellsRule hp (hall i e _ he hr)⟩

theorem exists_origin {i : Nat} {r : LexRule} (hr : rs[i]? = some r) :
    ∃ o ∈ origins net n, Branch net i o r := by
  obtain ⟨hlen, hall⟩ := spellsRules_iff.1 hs
  have hi : i < (net.edges n).toList.length := by
    rw [hlen]
    exact (List.getElem?_eq_some_iff.1 hr).1
  obtain ⟨e, he⟩ : ∃ e, (net.edges n).toList[i]? = some e := ⟨_, List.getElem?_eq_getElem hi⟩
  exact ⟨_, List.mem_map.2 ⟨(e, i), List.mem_zipIdx_iff_getElem?.2 he, rfl⟩,
    branch_of_spellsRule hp (hall i e r he hr)⟩

theorem after_isEmpty_iff (u : List Char) :
    (after net n u).configs.isEmpty = true ↔ ¬ ∃ r ∈ rs, ∃ v, r.pattern.Matches (u ++ v) := by
  rw [Array.isEmpty_iff, Array.eq_empty_iff_forall_not_mem]
  constructor
  · rintro h ⟨r, hr, v, hv⟩
    obtain ⟨i, hi⟩ := List.mem_iff_getElem?.1 hr
    obtain ⟨o, ho, hb⟩ := exists_origin hp hs hi
    obtain ⟨x, hw, hx⟩ := hb.reached u v hv
    exact h x ((mem_after hp).2 ⟨hw, o, ho, hx⟩)
  · intro h x hx
    obtain ⟨_, o, ho, hx⟩ := (mem_after hp).1 hx
    obtain ⟨i, r, hr, hb⟩ := exists_rule hp hs ho
    exact h ⟨r, List.mem_of_getElem? hr, hb.viable u x hx⟩

theorem final_of_mem_after {u : List Char} {f : LexConfig} (hf : f ∈ (after net n u).configs)
    (hstop : (net.state f.state).isRuleStop = true) :
    ∃ i r m, rs[i]? = some r ∧ r.pattern.Matches u ∧ f = finalOf i m r ∧
      Sequence.arrayAt (net.tokenTypes.getD #[]) (net.state m).rule = .ok r.symbol := by
  obtain ⟨hw, o, ho, hx⟩ := (mem_after hp).1 hf
  have hfinal : Final net f := ⟨hstop, by simpa [waits, hstop] using hw⟩
  obtain ⟨i, r, hr, hb⟩ := exists_rule hp hs ho
  obtain ⟨m, htype, hiff⟩ := hb.finals
  obtain ⟨hm, rfl⟩ := (hiff u f).1 ⟨hx, hfinal⟩
  exact ⟨i, r, m, hr, hm, rfl, htype⟩

theorem mem_after_of_matches {u : List Char} {i : Nat} {r : LexRule} (hr : rs[i]? = some r)
    (hu : r.pattern.Matches u) :
    ∃ f ∈ (after net n u).configs, f.alt = i + 1 ∧ (net.state f.state).isRuleStop = true := by
  obtain ⟨o, ho, hb⟩ := exists_origin hp hs hr
  obtain ⟨m, _, hiff⟩ := hb.finals
  obtain ⟨hx, hf⟩ := (hiff u _).2 ⟨hu, rfl⟩
  exact ⟨_, (mem_after hp).2 ⟨hf.waits, o, ho, hx⟩, rfl, hf.stop⟩

theorem find_after_none {u : List Char} (hu : ∀ r ∈ rs, ¬ r.pattern.Matches u) :
    (after net n u).configs.find? (fun c => (net.state c.state).isRuleStop) = none := by
  rw [Array.find?_eq_none]
  intro f hf hstop
  obtain ⟨i, r, _, hr, hm, _⟩ := final_of_mem_after hp hs hf hstop
  exact hu r (List.mem_of_getElem? hr) hm

theorem find_after_some {u : List Char} {before after' : List LexRule} {r : LexRule}
    (hrs : rs = before ++ r :: after') (hr : r.pattern.Matches u)
    (hbefore : ∀ s ∈ before, ¬ s.pattern.Matches u) :
    ∃ f, (after net n u).configs.find? (fun c => (net.state c.state).isRuleStop) = some f ∧
      f.actions = r.fate.actions ∧
      Sequence.arrayAt (net.tokenTypes.getD #[]) (net.state f.state).rule = .ok r.symbol := by
  have hget : rs[before.length]? = some r := by simp [hrs]
  obtain ⟨g, hg, halt, hstop⟩ := mem_after_of_matches hp hs hget hr
  rw [← Array.find?_toList]
  cases hfind : (after net n u).configs.toList.find? (fun c => (net.state c.state).isRuleStop) with
  | none => simpa [hstop] using List.find?_eq_none.1 hfind g (Array.mem_toList_iff.2 hg)
  | some f =>
    have hf : f ∈ (after net n u).configs := Array.mem_toList_iff.1 (List.mem_of_find?_eq_some hfind)
    obtain ⟨hfstop, as, bs, hl, has⟩ := List.find?_eq_some_iff_append.1 hfind
    have hle : f.alt ≤ g.alt := by
      have hord : Ordered (after net n u).configs.toList := ordered_after n u
      rw [Ordered, hl, List.pairwise_append, List.pairwise_cons] at hord
      have hg : g ∈ as ++ f :: bs := hl ▸ Array.mem_toList_iff.2 hg
      rcases List.mem_append.1 hg with hg | hg
      · exact absurd hstop (by simpa using has g hg)
      · rcases List.mem_cons.1 hg with rfl | hg
        · exact Int.le_refl _
        · exact hord.2.1.1 g hg
    obtain ⟨j, s, m, hj, hm, rfl, htype⟩ := final_of_mem_after hp hs hf hfstop
    have hj' : j ≤ before.length := by
      simp only [finalOf] at hle
      omega
    rcases Nat.lt_or_eq_of_le hj' with hlt | rfl
    · -- a rule before the first that matches does not match
      rw [hrs, List.getElem?_append_left hlt] at hj
      exact absurd hm (hbefore s (List.mem_of_getElem? hj))
    · obtain rfl : r = s := Option.some.inj (hget.symm.trans hj)
      exact ⟨_, rfl, rfl, htype⟩

end Rules

end Lexing

end Throbac
