import Mathlib.Data.List.TakeWhile
import Throbac.Proofs.Stack.Forms

/-!
# Merging contexts

Merging two sets in form gives the set of the stacks of both, again in form, whatever is remembered in
the cache, as long as what is remembered was merged alike. Where the bottom is a wildcard the empty
stack swallows all others.

The form and the readings are those of the caller: with the bottom as a wildcard in both readings the
result is the union, and over the states of a network no stack of states is invented, and each keeps
its upper part.
-/
namespace Throbac

namespace StackContext

variable {σ : Form} {size : Nat} {wild lower upper : Bool} {fs gs hs : List (StackContext × Int)}
  {cache : Option MergeCache} {a b c p q : StackContext} {r s : Int}

/-! ## What is remembered -/

/-- The set `c` is in form and has the stacks of two sets. -/
structure Unites (σ : Form) (lower upper : Bool) (a b c : StackContext) : Prop
    extends Joined lower upper a.frames b.frames c.frames where
  formed : Formed σ c

theorem Unites.symm (h : Unites σ lower upper a b c) : Unites σ lower upper b a c :=
  ⟨h.toJoined.symm, h.formed⟩

theorem Unites.self (h : Formed σ a) : Unites σ lower upper a a a :=
  ⟨.of_iff fun _ _ => by rw [or_self], h⟩

def Knows (σ : Form) (lower upper : Bool) (cache : Option MergeCache) : Prop :=
  ∀ l, cache = some l → ∀ e ∈ l, Unites σ lower upper e.1.1 e.1.2 e.2

theorem remembered_ok (h : Knows σ lower upper cache) (a b : StackContext) :
    ∃ known, remembered a b cache = .ok known cache ∧ ∀ c, known = some c → Unites σ lower upper a b c := by
  unfold remembered
  rw [Run.get_bind]
  cases cache with
  | none => exact ⟨none, rfl, by simp⟩
  | some l =>
    dsimp only
    -- both orders of the pair are looked up
    have hentry : ∀ x y e, l.find? (fun e => e.1 = (x, y)) = some e → Unites σ lower upper x y e.2 := by
      intro x y e he
      have hkey := List.find?_some he
      rw [decide_eq_true_eq] at hkey
      have hmerged := h l rfl e (List.mem_of_find?_eq_some he)
      rwa [hkey] at hmerged
    cases he : l.find? (fun e => e.1 = (a, b)) with
    | some e =>
      refine ⟨some e.2, rfl, ?_⟩
      rintro c hc
      obtain rfl := Option.some.inj hc
      exact hentry a b e he
    | none =>
      refine ⟨_, rfl, ?_⟩
      intro c hc
      obtain ⟨e, he, rfl⟩ := Option.map_eq_some_iff.1 hc
      exact (hentry b a e he).symm

theorem remember_ok (h : Knows σ lower upper cache) (hmerged : Unites σ lower upper a b c) :
    ∃ cache', remember a b c cache = .ok c cache' ∧ Knows σ lower upper cache' := by
  refine ⟨cache.map (((a, b), c) :: ·), rfl, ?_⟩
  intro l hl e he
  obtain ⟨l', hl', rfl⟩ := Option.map_eq_some_iff.1 hl
  rcases List.mem_cons.1 he with rfl | he
  · exact hmerged
  · exact h l' hl' e he

/-- Work on the cache that gives the merge of two sets. -/
def Merges (σ : Form) (lower upper : Bool) (m : MergeM StackContext) (a b : StackContext) : Prop :=
  ∀ cache, Knows σ lower upper cache →
    ∃ c cache', m cache = .ok c cache' ∧ Unites σ lower upper a b c ∧ Knows σ lower upper cache'

/-! ## Merging frames -/

/-- Frames `hs` that two lists of frames were merged to. -/
structure Line (σ : Form) (lower upper : Bool) (fs gs hs : List (StackContext × Int)) : Prop
    extends Joined lower upper fs gs hs, Lined σ hs where
  grown : Grown σ hs
  nonempty : fs ≠ [] → hs ≠ []
  rets : ∀ h ∈ hs, (∃ f ∈ fs, f.2 = h.2) ∨ ∃ g ∈ gs, g.2 = h.2

theorem span_lt (h : gs.Pairwise fun f g => f.2 < g.2) (r : Int) : ∃ low high,
    gs.span (fun f => decide (f.2 < r)) = (low, high) ∧ gs = low ++ high ∧ (∀ f ∈ low, f.2 < r) ∧
      ∀ f ∈ high, r ≤ f.2 := by
  refine ⟨_, _, List.span_eq_takeWhile_dropWhile _ _, List.takeWhile_append_dropWhile.symm, ?_, ?_⟩
  · intro f hf
    simpa using List.mem_takeWhile_imp hf
  · intro f hf
    have hsorted := h.sublist (List.dropWhile_sublist (fun f => decide (f.2 < r)))
    cases hdrop : gs.dropWhile (fun f => decide (f.2 < r)) with
    | nil =>
      rw [hdrop] at hf
      exact absurd hf List.not_mem_nil
    | cons g rest =>
      have hg : r ≤ g.2 := by
        have := List.head?_dropWhile_not (fun f => decide (f.2 < r)) gs
        rw [hdrop] at this
        simpa using this
      rw [hdrop] at hf hsorted
      rcases List.mem_cons.1 hf with rfl | hf
      · exact hg
      · exact Int.le_trans hg (Int.le_of_lt ((List.pairwise_cons.1 hsorted).1 f hf))

theorem mergeFrame_ok {join : StackContext → MergeM StackContext} (hσ : σ.Suits wild)
    (hframe : Lined σ [(p, r)]) (hp : Grown σ [(p, r)])
    (hlined : Lined σ gs) (hgrown : Grown σ gs)
    (hjoin : r ≠ bottom → ∀ q, Formed σ q → Merges σ lower upper (join q) p q)
    (hcache : Knows σ lower upper cache) :
    ∃ front rest cache', mergeFrame join p r gs cache = .ok (front, rest) cache' ∧
      Knows σ lower upper cache' ∧ Line σ lower upper [(p, r)] gs (front ++ rest) ∧ front ≠ [] ∧
      (∀ f ∈ front, f.2 ≤ r) ∧ ∀ f ∈ rest, r < f.2 := by
  -- the frames below the new one and those behind it
  obtain ⟨low, high, hspan, rfl, hlow, hhigh⟩ := span_lt hlined.sorted r
  have hput : ∀ {c rest}, Lined σ [(c, r)] → Grown σ [(c, r)] →
      rest.Sublist high → (∀ f ∈ rest, r < f.2) → Joined lower upper [(p, r)] high ((c, r) :: rest) →
      Line σ lower upper [(p, r)] (low ++ high) ((low ++ [(c, r)]) ++ rest) ∧ low ++ [(c, r)] ≠ [] ∧
        (∀ f ∈ low ++ [(c, r)], f.2 ≤ r) ∧ ∀ f ∈ rest, r < f.2 := by
    intro c rest hc hcgrown hsub hrest hjoined
    have hwhole : (low ++ rest).Sublist (low ++ high) := hsub.append_left low
    have hmem : ∀ f ∈ low ++ (c, r) :: rest, f ∈ low ++ high ∨ f ∈ [(c, r)] := by
      intro f hf
      rcases List.mem_append.1 hf with hf | hf
      · exact .inl (List.mem_append_left _ hf)
      · rcases List.mem_cons.1 hf with rfl | hf
        · exact .inr List.mem_cons_self
        · exact .inl (List.mem_append_right _ (hsub.subset hf))
    rw [List.append_assoc, List.singleton_append]
    refine ⟨⟨(@Joined.append lower upper [] low).extend hjoined,
      (hlined.sublist hwhole).insert hc hlow hrest, ?_, by simp, ?_⟩, by simp, ?_, hrest⟩
    · intro f hf
      exact (hmem f hf).elim (hgrown f) (hcgrown f)
    · intro f hf
      rcases hmem f hf with hf | hf
      · exact .inr ⟨f, hf, rfl⟩
      · rw [List.mem_singleton] at hf
        exact .inl ⟨(p, r), List.mem_cons_self, by rw [hf]⟩
    · intro f hf
      rcases List.mem_append.1 hf with hf | hf
      · exact Int.le_of_lt (hlow f hf)
      · rw [List.mem_singleton] at hf
        exact Int.le_of_eq (by rw [hf])
  simp only [mergeFrame, hspan]
  cases high with
  | nil => exact ⟨_, _, cache, rfl, hcache, hput hframe hp (.refl _) (by simp) .append⟩
  | cons f high =>
    obtain ⟨q, s⟩ := f
    have hsorted := (List.pairwise_append.1 hlined.sorted).2.1
    have hbehind : ∀ f ∈ high, s < f.2 := (List.pairwise_cons.1 hsorted).1
    have hsub : high.Sublist ((q, s) :: high) := List.sublist_cons_self _ _
    have hqs : (q, s) ∈ low ++ (q, s) :: high := List.mem_append_right _ List.mem_cons_self
    dsimp only
    by_cases hrs : r = s
    · subst hrs
      rw [if_pos rfl]
      split
      · next hsame =>
        obtain rfl : p = q := by
          rcases hsame with ⟨-, rfl, rfl⟩ | ⟨-, rfl⟩ <;> rfl
        refine ⟨_, _, cache, rfl, hcache, hput hframe hp hsub hbehind (.of_iff fun _ γ => ?_)⟩
        rw [reads_cons]
        tauto
      · next hother =>
        have hr : r ≠ bottom := by
          intro hr
          exact hother (.inl ⟨hr, hframe.ending _ List.mem_cons_self hr, hlined.ending _ hqs hr⟩)
        obtain ⟨c, cache', hrun, hmerged, hknown⟩ := hjoin hr q (hgrown _ hqs hr) cache hcache
        have hc : Lined σ [(c, r)] :=
          .ofRet (hframe.range _ List.mem_cons_self hr) (hσ.below _ (hframe.range _ List.mem_cons_self hr))
        have hcgrown : Grown σ [(c, r)] := by
          intro f hf _
          rw [List.mem_singleton] at hf
          rw [hf]
          exact hmerged.formed
        refine ⟨_, _, cache', Run.bind_ok hrun, hknown, hput hc hcgrown hsub hbehind ?_⟩
        exact (hmerged.toJoined.frame hr).extend (@Joined.append lower upper [] high)
    · have hlt : r < s := by
        have := hhigh _ List.mem_cons_self
        dsimp only at this
        omega
      rw [if_neg hrs]
      refine ⟨_, _, cache, rfl, hcache, hput hframe hp (.refl _) ?_ .append⟩
      intro f hf
      rcases List.mem_cons.1 hf with rfl | hf
      · exact hlt
      · exact Int.lt_trans hlt (hbehind f hf)

theorem mergeFrames_ok {ps : List StackContext} {rs : List Int} (hσ : σ.Suits wild) (hlength : ps.length = rs.length)
    (hfs : Lined σ (ps.zip rs)) (hfgrown : Grown σ (ps.zip rs))
    (hgs : Lined σ gs) (hggrown : Grown σ gs)
    (hmerge : ∀ f ∈ ps.zip rs, f.2 ≠ bottom → ∀ q, Formed σ q →
      Merges σ lower upper (merge wild f.1 q) f.1 q) (hcache : Knows σ lower upper cache) :
    ∃ hs cache', mergeFrames wild ps rs gs cache = .ok hs cache' ∧ Knows σ lower upper cache' ∧
      Line σ lower upper (ps.zip rs) gs hs := by
  induction ps generalizing rs gs cache with
  | nil =>
    obtain rfl : rs = [] := List.eq_nil_of_length_eq_zero hlength.symm
    refine ⟨gs, cache, by rw [mergeFrames.eq_def]; rfl, hcache, @Joined.append lower upper [] gs, hgs, hggrown,
      fun h => absurd rfl h, ?_⟩
    intro h hh
    exact .inr ⟨h, hh, rfl⟩
  | cons p ps ih =>
    cases rs with
    | nil => simp at hlength
    | cons r rs =>
      simp only [List.zip_cons_cons] at hfs hfgrown hmerge ⊢
      have htail : (ps.zip rs).Sublist ((p, r) :: ps.zip rs) := List.sublist_cons_self _ _
      have hhead : [(p, r)].Sublist ((p, r) :: ps.zip rs) :=
        List.cons_sublist_cons.2 (List.nil_sublist _)
      have habove : ∀ f ∈ ps.zip rs, r < f.2 := (List.pairwise_cons.1 hfs.sorted).1
      obtain ⟨front, rest, cache₁, hrun₁, hknown₁, hline₁, hfilled, hfront, hrest⟩ :=
        mergeFrame_ok hσ (hfs.sublist hhead) (fun f hf => hfgrown f (hhead.subset hf)) hgs hggrown
          (hmerge (p, r) List.mem_cons_self) hcache
      obtain ⟨hs, cache₂, hrun₂, hknown₂, hline₂⟩ := ih (by simpa using hlength) (hfs.sublist htail)
        (fun f hf => hfgrown f (htail.subset hf))
        (hline₁.toLined.sublist (List.sublist_append_right _ _))
        (fun f hf => hline₁.grown f (List.mem_append_right _ hf))
        (fun f hf => hmerge f (htail.subset hf)) hknown₁
      have hbehind : ∀ h ∈ hs, r < h.2 := by
        intro h hh
        rcases hline₂.rets h hh with ⟨f, hf, heq⟩ | ⟨f, hf, heq⟩
        · exact heq ▸ habove f hf
        · exact heq ▸ hrest f hf
      refine ⟨front ++ hs, cache₂, ?_, hknown₂, hline₁.toJoined.rest hline₂.toJoined, ?_, ?_, ?_, ?_⟩
      · rw [mergeFrames, Run.bind_ok hrun₁]
        exact Run.bind_ok hrun₂
      · refine (hline₁.toLined.sublist (List.sublist_append_left _ _)).append hline₂.toLined ?_
        intro f hf h hh
        exact Int.lt_of_le_of_lt (hfront f hf) (hbehind h hh)
      · intro h hh
        rcases List.mem_append.1 hh with hh | hh
        · exact hline₁.grown h (List.mem_append_left _ hh)
        · exact hline₂.grown h hh
      · intro _
        exact List.append_ne_nil_of_left_ne_nil hfilled _
      · intro h hh
        rcases List.mem_append.1 hh with hh | hh
        · rcases hline₁.rets h (List.mem_append_left _ hh) with ⟨f, hf, heq⟩ | hg
          · exact .inl ⟨f, hhead.subset hf, heq⟩
          · exact .inr hg
        · rcases hline₂.rets h hh with ⟨f, hf, heq⟩ | ⟨f, hf, heq⟩
          · exact .inl ⟨f, htail.subset hf, heq⟩
          · rcases hline₁.rets f (List.mem_append_right _ hf) with ⟨g, hg, heq'⟩ | ⟨g, hg, heq'⟩
            · exact .inl ⟨g, hhead.subset hg, heq'.trans heq⟩
            · exact .inr ⟨g, hg, heq'.trans heq⟩

/-! ## Merging sets -/

theorem finish_ok (hline : Line σ lower upper a.frames b.frames hs) (hleast : σ.least ≤ hs.length) :
    Merges σ lower upper (ofMerged.finish a b (.array (hs.map Prod.fst) (hs.map Prod.snd))) a b := by
  intro cache hcache
  have hunites : Unites σ lower upper a b (.array (hs.map Prod.fst) (hs.map Prod.snd)) :=
    ⟨by rw [frames, zip_fst_snd]; exact hline.toJoined, .ofFrames hline.toLined hline.grown hleast⟩
  obtain ⟨cache', hrun, hknown⟩ := remember_ok hcache hunites
  refine ⟨_, cache', ?_, hunites, hknown⟩
  rw [ofMerged.finish]
  split
  · next heq => rw [← hrun, heq]
  · split
    · next heq => rw [← hrun, heq]
    · exact hrun

theorem ofMerged_ok {total : Nat} (hσ : σ.Suits wild) (hline : Line σ lower upper a.frames b.frames hs)
    (hleast : 0 < σ.least → 1 < total ∧ hs ≠ []) : Merges σ lower upper (ofMerged a b total hs) a b := by
  unfold ofMerged
  split
  · next p r =>
    split
    · intro cache hcache
      have hpush := Formed.push hline.toLined hline.grown
      have hunites : Unites σ lower upper a b (p.push r) :=
        ⟨by rw [hpush.2]; exact hline.toJoined, hpush.1⟩
      obtain ⟨cache', hrun, hknown⟩ := remember_ok hcache hunites
      exact ⟨_, cache', hrun, hunites, hknown⟩
    · next hfew =>
      refine finish_ok hline ?_
      have hzero : ¬ 0 < σ.least := fun h => hfew (hleast h).1
      omega
  · next hlong =>
    refine finish_ok hline ?_
    have hlength : σ.least = 0 ∨ 2 ≤ hs.length := by
      rcases Nat.eq_zero_or_pos σ.least with hzero | hpos
      · exact .inl hzero
      · right
        cases hs with
        | nil => exact absurd rfl (hleast hpos).2
        | cons f hs =>
          cases hs with
          | nil => exact absurd rfl (hlong f.1 f.2)
          | cons => simp
    have := hσ.least
    omega

theorem mergeArrays_ok {go : List (StackContext × Int) → MergeM (List (StackContext × Int))}
    (hσ : σ.Suits wild) (ha : Formed σ a) (hb : Formed σ b)
    (hgo : ∀ cache, Knows σ lower upper cache → ∃ hs cache', go b.frames cache = .ok hs cache' ∧
      Knows σ lower upper cache' ∧ Line σ lower upper a.frames b.frames hs) :
    Merges σ lower upper (mergeArrays a b go) a b := by
  intro cache hcache
  have hkeys : ∀ c, Unites σ lower upper a.spread b.spread c → Unites σ lower upper a b c := by
    intro c h
    have hjoined := h.toJoined
    rw [ha.frames_spread, hb.frames_spread] at hjoined
    exact ⟨hjoined, h.formed⟩
  obtain ⟨known, hrun, hknown⟩ := remembered_ok hcache a.spread b.spread
  rw [mergeArrays]
  dsimp only
  rw [Run.bind_ok hrun]
  cases known with
  | some c => exact ⟨c, cache, rfl, hkeys c (hknown c rfl), hcache⟩
  | none =>
    dsimp only
    rw [if_neg (by simp [ha.spread_ne_null, hb.spread_ne_null]), ha.frames_spread, hb.frames_spread]
    obtain ⟨hs, cache₁, hgo, hknown₁, hline⟩ := hgo cache hcache
    have hleast : 0 < σ.least → 1 < a.frames.length + b.frames.length ∧ hs ≠ [] := by
      intro hpos
      have hlength := ha.length_frames
      have hlength' := hb.length_frames
      exact ⟨by omega, hline.nonempty (List.ne_nil_of_length_pos (by omega))⟩
    obtain ⟨c, cache₂, hof, hmerged, hknown₂⟩ := ofMerged_ok (a := a.spread) (b := b.spread) hσ
      (by rw [ha.frames_spread, hb.frames_spread]; exact hline) hleast cache₁ hknown₁
    refine ⟨c, cache₂, ?_, hkeys c hmerged, hknown₂⟩
    rw [Run.bind_ok hgo, ha.isAligned_spread, hb.isAligned_spread]
    exact hof

theorem unites_empty (hupper : upper = true) (b : StackContext) : Unites σ lower upper .empty b .empty :=
  ⟨⟨fun _ => .inl, fun _ _ => reads_bottom.2 (.inl hupper)⟩, .empty⟩

theorem unites_append (hσ : σ.Suits wild) (hleft : Lined σ [(p, r)]) (hright : Lined σ [(q, s)])
    (hp : Grown σ [(p, r)]) (hq : Grown σ [(q, s)]) (hlt : r < s) (ha : a.frames = [(p, r)])
    (hb : b.frames = [(q, s)]) : Unites σ lower upper a b (.array [p, q] [r, s]) := by
  have hlined : Lined σ ([(p, r)] ++ [(q, s)]) := hleft.append hright (by simpa using hlt)
  refine ⟨?_, .array rfl hσ.least hlined ?_⟩
  · rw [ha, hb]
    exact .append
  · intro f hf
    exact (List.mem_append.1 (show f ∈ [(p, r)] ++ [(q, s)] from hf)).elim (hp f) (hq f)

theorem unites_bottom (hσ : σ.Suits wild) (hopen : σ.closed = false) (hr : σ.Ret r) (hp : Formed σ p) :
    Unites σ lower upper (.single p r) .empty (.array [p, null] [r, StackContext.bottom]) := by
  have hsingle := Formed.single hr hp
  have hclosed : σ.closed = true → StackContext.empty ≠ .empty := by simp [hopen]
  exact unites_append hσ (hsingle.lined hσ (by simp)) (Formed.empty.lined hσ hclosed) hsingle.grown
    Formed.empty.grown (hσ.below r hr) rfl rfl

theorem unites_pairUp (hσ : σ.Suits wild) (hr : σ.Ret r) (hs : σ.Ret s) (hne : r ≠ s) (hp : Formed σ p)
    (hq : Formed σ q) : Unites σ lower upper (.single p r) (.single q s) (pairUp p r q s) := by
  have hleft := Formed.single hr hp
  have hright := Formed.single hs hq
  have hlined := hleft.lined hσ (by simp)
  have hlined' := hright.lined hσ (by simp)
  unfold StackContext.pairUp
  split
  · next hgt => exact (unites_append hσ hlined' hlined hright.grown hleft.grown hgt rfl rfl).symm
  · exact unites_append hσ hlined hlined' hleft.grown hright.grown (by omega) rfl rfl

theorem recall_ok {m : MergeM StackContext} (hm : Merges σ lower upper m a b) :
    Merges σ lower upper (remembered a b >>= fun known => match known with
      | some c => pure c
      | none => m) a b := by
  intro cache hcache
  obtain ⟨known, hrun, hknown⟩ := remembered_ok hcache a b
  rw [Run.bind_ok hrun]
  cases known with
  | some c => exact ⟨c, cache, rfl, hknown c rfl, hcache⟩
  | none => exact hm cache hcache

theorem Unites.remembered (h : Unites σ lower upper a b c) : Merges σ lower upper (remember a b c) a b := by
  intro cache hcache
  obtain ⟨cache', hrun, hknown⟩ := remember_ok hcache h
  exact ⟨c, cache', hrun, h, hknown⟩

theorem insert_ok (hσ : σ.Suits wild) (ha : Formed σ a) (hb : Formed σ b)
    (hframes : a.frames = [(p, r)]) (hempty : σ.closed = true → a ≠ .empty ∧ b ≠ .empty)
    {join : StackContext → MergeM StackContext}
    (hjoin : r ≠ bottom → ∀ q, Formed σ q → Merges σ lower upper (join q) p q) :
    Merges σ lower upper (mergeArrays a b fun others => do
      let (front, rest) ← mergeFrame join p r others
      return front ++ rest) a b := by
  refine mergeArrays_ok hσ ha hb fun cache hcache => ?_
  have hlined := ha.lined hσ fun hw => (hempty hw).1
  have hgrown := ha.grown
  rw [hframes] at hlined hgrown ⊢
  obtain ⟨front, rest, cache', hrun, hknown, hline, -, -, -⟩ := mergeFrame_ok hσ hlined hgrown
    (hb.lined hσ fun hw => (hempty hw).2) hb.grown hjoin hcache
  exact ⟨front ++ rest, cache', Run.bind_ok hrun, hknown, hline⟩

theorem merges_merge (hσ : σ.Suits wild) (hupper : wild = true → upper = true) (ha : Formed σ a) (hb : Formed σ b) :
    Merges σ lower upper (merge wild a b) a b := by
  induction ha generalizing b with
  | empty =>
    by_cases heq : StackContext.empty = b
    · subst heq
      intro cache hcache
      exact ⟨.empty, cache, by rw [merge.eq_def]; rfl, .self .empty, hcache⟩
    rw [merge.eq_def]
    dsimp only
    rw [if_neg heq]
    cases hb with
    | empty => exact absurd rfl heq
    | single hs hq =>
      refine recall_ok (Unites.remembered ?_)
      cases wild with
      | true => exact unites_empty (hupper rfl) _
      | false => exact (unites_bottom hσ hσ.open hs hq).symm
    | array hlength hleast hlined hgrown =>
      cases wild with
      | true =>
        intro cache hcache
        exact ⟨.empty, cache, rfl, unites_empty (hupper rfl) _, hcache⟩
      | false =>
        refine insert_ok hσ .empty (.array hlength hleast hlined hgrown) rfl ?_ ?_
        · simp [hσ.open]
        · intro hb
          exact absurd rfl hb
  | @single p r hr hp ih =>
    by_cases heq : StackContext.single p r = b
    · subst heq
      intro cache hcache
      exact ⟨_, cache, by rw [merge.eq_def]; dsimp only; rw [if_pos rfl]; rfl, .self (.single hr hp), hcache⟩
    rw [merge.eq_def]
    dsimp only
    rw [if_neg heq]
    cases hb with
    | empty =>
      refine recall_ok (Unites.remembered ?_)
      cases wild with
      | true => exact (unites_empty (hupper rfl) _).symm
      | false => exact unites_bottom hσ hσ.open hr hp
    | @single q s hs hq =>
      refine recall_ok ?_
      by_cases hrs : r = s
      · subst hrs
        rw [if_pos rfl]
        intro cache hcache
        obtain ⟨c, cache', hrun, hunites, hknown⟩ := ih hq cache hcache
        have hresult : Unites σ lower upper (.single p r) (.single q r) (.single c r) :=
          ⟨hunites.toJoined.frame (Int.ne_of_lt (hσ.below r hr)), .single hr hunites.formed⟩
        rw [Run.bind_ok hrun]
        split
        · next hc => exact ⟨_, cache', rfl, hc ▸ hresult, hknown⟩
        · split
          · next hc => exact ⟨_, cache', rfl, hc ▸ hresult, hknown⟩
          · rw [hunites.formed.push_eq]
            exact hresult.remembered cache' hknown
      · rw [if_neg hrs]
        exact (unites_pairUp hσ hr hs hrs hp hq).remembered
    | array hlength hleast hlined hgrown =>
      exact insert_ok hσ (.single hr hp) (.array hlength hleast hlined hgrown) rfl (by simp)
        fun _ q hq => ih hq
  | @array ps rs hlength hleast hlined hgrown ih =>
    have ha : Formed σ (.array ps rs) := .array hlength hleast hlined hgrown
    by_cases heq : StackContext.array ps rs = b
    · subst heq
      intro cache hcache
      exact ⟨_, cache, by rw [merge.eq_def]; dsimp only; rw [if_pos rfl]; rfl, .self ha, hcache⟩
    rw [merge.eq_def]
    dsimp only
    rw [if_neg heq]
    split
    · next hwild =>
      obtain ⟨hwild, rfl⟩ := hwild
      intro cache hcache
      exact ⟨_, cache, rfl, (unites_empty (hupper hwild) _).symm, hcache⟩
    · next hwild =>
      refine mergeArrays_ok hσ ha hb fun cache hcache => ?_
      refine mergeFrames_ok hσ hlength hlined hgrown (hb.lined hσ ?_) hb.grown
        (fun f hf hne q hq => ih f hf hne hq) hcache
      intro hclosed he
      exact hwild ⟨hσ.closed hclosed, he⟩

/-! ## Proper contexts -/

/-- The set `c` is proper and has the stacks of states of two sets, each with its upper part. -/
abbrev Merged (size : Nat) (wild : Bool) : StackContext → StackContext → StackContext → Prop :=
  Unites (.states size wild) false true

/-- The cache remembers the results of merging proper sets. -/
abbrev Known (size : Nat) (wild : Bool) : Option MergeCache → Prop := Knows (.states size wild) false true

namespace Merged

theorem proper (h : Merged size wild a b c) : Proper size wild c := h.formed

theorem sound (h : Merged size wild a b c) (γ : List Nat) (hγ : c.Has γ) : a.Has γ ∨ b.Has γ :=
  (h.toJoined.sound _ (tops_iff.1 hγ)).imp tops_iff.2 tops_iff.2

end Merged

theorem Known.mono (h : Known size true cache) : Known size wild cache :=
  fun l hl e he => ⟨(h l hl e he).toJoined, Proper.mono (h l hl e he).formed⟩

theorem merge_ok (hsize : (size : Int) ≤ bottom) (ha : Proper size wild a) (hb : Proper size wild b)
    (cache : Option MergeCache) (hcache : Known size wild cache) :
    ∃ c cache', merge wild a b cache = .ok c cache' ∧ Merged size wild a b c ∧ Known size wild cache' :=
  merges_merge (Form.suits_states hsize) (fun _ => rfl) ha hb cache hcache

end StackContext

end Throbac
