import Throbac.Proofs.Program.Plain

/-!
# Programs read back from their text

Programs with the same text are the same up to what is written alike. The first line of a statement
tells its kind, the indentation where a block ends, and an expression is told by the text that stands
for it.
-/
namespace Throbac

mutual

def Statement.plain : Statement → Statement
  | .assignment x e => .assignment x e.plain
  | .loop e ss => .loop e.plain (Statement.plainAll ss)
  | .branch e ss none => .branch e.plain (Statement.plainAll ss) none
  | .branch e ss (some ts) => .branch e.plain (Statement.plainAll ss) (some (Statement.plainAll ts))
  | .printNumber e => .printNumber e.plain
  | .printString e => .printString e.plain
  | .printBool e => .printBool e.plain
  | .giveBack none => .giveBack none
  | .giveBack (some e) => .giveBack (some e.plain)
  | .call i => .call ⟨i.function, Expr.plainAll i.arguments⟩

def Statement.plainAll : List Statement → List Statement
  | [] => []
  | s :: ss => s.plain :: Statement.plainAll ss

end

def ProgramBody.plain (b : ProgramBody) : ProgramBody := { b with block := Statement.plainAll b.block }

def FuncDef.plain (f : FuncDef) : FuncDef := { f with body := f.body.plain }

def Phrase.plain : Phrase → Phrase
  | .script s => .script ⟨s.functions.map FuncDef.plain, s.main.plain⟩
  | .funcDef f => .funcDef f.plain
  | .main b => .main b.plain
  | .body b => .body b.plain
  | .varDec d => .varDec d
  | .nameDef d => .nameDef d
  | .varBlock ds => .varBlock ds
  | .block ss => .block (Statement.plainAll ss)
  | .statement s => .statement s.plain
  | .expr e => .expr e.plain
  | .funcCall i => .funcCall ⟨i.function, Expr.plainAll i.arguments⟩

theorem append_inj_of_break {α : Type} (p : α → Bool) {as bs xs ys : List α} (has : ∀ a ∈ as, p a = true)
    (hbs : ∀ b ∈ bs, p b = true) (hxs : ∀ x ∈ xs.head?, p x = false) (hys : ∀ y ∈ ys.head?, p y = false)
    (h : as ++ xs = bs ++ ys) : as = bs ∧ xs = ys := by
  induction as generalizing bs with
  | nil =>
    cases bs with
    | nil => exact ⟨rfl, h⟩
    | cons b bs =>
      subst h
      exact absurd (hbs b List.mem_cons_self) (by simp [hxs b rfl])
  | cons a as ih =>
    cases bs with
    | nil =>
      subst h
      exact absurd (has a List.mem_cons_self) (by simp [hys a rfl])
    | cons b bs =>
      obtain ⟨rfl, htail⟩ := List.cons.inj h
      obtain ⟨rfl, rfl⟩ := ih (fun a ha => has a (List.mem_cons_of_mem _ ha))
        (fun b hb => hbs b (List.mem_cons_of_mem _ hb)) htail
      exact ⟨rfl, rfl⟩

namespace CText

theorem indented_inj {l l' : List Char} (h : indented l = indented l') : l = l' := by
  unfold indented at h
  split at h <;> split at h <;> simp_all

def isInner (l : List Char) : Bool := l.head? != some '\x7d'

theorem isInner_of_mem {ls : List (List Char)} : ∀ l ∈ inner ls, isInner l = true := by
  intro l hl
  obtain ⟨k, _, rfl⟩ := List.mem_map.1 hl
  unfold indented
  split <;> rfl

theorem inner_inj {ls ls' xs xs' : List (List Char)} (hls : ls ≠ [[]]) (hls' : ls' ≠ [[]])
    (hxs : ∀ x ∈ xs.head?, isInner x = false) (hxs' : ∀ x ∈ xs'.head?, isInner x = false)
    (h : inner ls ++ xs = inner ls' ++ xs') : ls = ls' ∧ xs = xs' := by
  obtain ⟨hinner, rfl⟩ := append_inj_of_break isInner isInner_of_mem isInner_of_mem hxs hxs' h
  have hmap := (List.map_injective_iff.2 fun _ _ => indented_inj) hinner
  refine ⟨?_, rfl⟩
  split at hmap <;> split at hmap
  · simp_all
  · exact absurd hmap.symm hls'
  · exact absurd hmap hls
  · exact hmap

theorem braced_inj {head head' : List Char} {ls ls' xs xs' : List (List Char)} (hls : ls ≠ [[]])
    (hls' : ls' ≠ [[]]) (h : braced head ls ++ xs = braced head' ls' ++ xs') :
    head = head' ∧ ls = ls' ∧ xs = xs' := by
  simp only [braced, List.cons_append, List.append_assoc, List.nil_append, List.cons.injEq] at h
  obtain ⟨hhead, hrest⟩ := h
  obtain ⟨rfl, hxs⟩ := inner_inj hls hls' (by simp [isInner]) (by simp [isInner]) hrest
  exact ⟨List.append_cancel_right hhead, rfl, (List.cons.inj hxs).2⟩

end CText

namespace Statement

def tag : Statement → Nat
  | .assignment .. => 0
  | .printNumber _ => 1
  | .printBool _ => 2
  | .printString _ => 3
  | .call _ => 4
  | .giveBack none => 5
  | .loop .. => 6
  | .branch .. => 7
  | .giveBack (some _) => 8

/-- The kind of the statement that a line begins: what comes behind the first word tells it, or the last
character, or the first. -/
def tagOf (l : List Char) : Nat :=
  match l.dropWhile Char.isLower with
  | ' ' :: '=' :: _ => 0
  | '(' :: '"' :: '%' :: 'd' :: _ => 1
  | '(' :: '"' :: '%' :: 's' :: _ => if '?' ∈ l then 2 else 3
  | '(' :: _ => 4
  | ';' :: _ => 5
  | _ => if l.getLast? = some '\x7b' then if l.head? = some 'w' then 6 else 7 else 8

theorem dropWhile_name {x : String} (hx : IsName x) {c : Char} (hc : c.isLower = false) (cs : List Char) :
    (x.toList ++ c :: cs).dropWhile Char.isLower = c :: cs := by
  rw [List.dropWhile_append_of_pos hx.2, List.dropWhile_cons_of_neg (by simp [hc])]

theorem tagOf_call {i : Invocation} (h : i.expr.Spelled) : tagOf (i.expr.written ++ [';']) = 4 := by
  have hdrop : (i.expr.written ++ [';']).dropWhile Char.isLower =
      '(' :: (Expr.writtenAll i.arguments ++ [')', ';']) := by
    rw [Invocation.expr, Expr.written, List.append_assoc, List.cons_append, dropWhile_name h.1 (by decide),
      List.append_assoc]
    rfl
  have hrest : '%' ∉ Expr.writtenAll i.arguments ++ [')', ';'] := by
    have hargs := Expr.not_mem_writtenAll (c := '%') (by decide) i.arguments h.2
    simp [hargs]
  rw [tagOf, hdrop]
  generalize Expr.writtenAll i.arguments ++ [')', ';'] = rest at hrest
  split
  · next heq => cases heq
  · next heq =>
    cases heq
    simp at hrest
  · next heq =>
    cases heq
    simp at hrest
  · rfl
  · next heq => cases heq
  · next hno _ => exact absurd rfl (hno rest)

theorem tagOf_giveBack {e : Expr} (h : e.Spelled) :
    tagOf (['r', 'e', 't', 'u', 'r', 'n', ' '] ++ (e.written ++ [';'])) = 8 := by
  obtain ⟨c, cs, hw, hc⟩ := e.head_written h
  have hne : c ≠ '=' := by
    rintro rfl
    revert hc
    decide
  have hdrop : (['r', 'e', 't', 'u', 'r', 'n', ' '] ++ (e.written ++ [';'])).dropWhile Char.isLower =
      ' ' :: (e.written ++ [';']) := by simp
  have hlast : (['r', 'e', 't', 'u', 'r', 'n', ' '] ++ (e.written ++ [';'])).getLast? = some ';' := by
    rw [← List.append_assoc, List.getLast?_concat]
  rw [tagOf, hdrop, hw]
  split
  · next heq =>
    cases heq
    exact absurd rfl hne
  · next heq => cases heq
  · next heq => cases heq
  · next heq => cases heq
  · next heq => cases heq
  · rw [← hw, hlast, if_neg (by decide)]

theorem exists_first {s : Statement} (h : ∀ e ∈ s.exprs, e.Spelled) :
    ∃ l ls, s.written = l :: ls ∧ l ≠ [] ∧ tagOf l = s.tag := by
  have hlast : ∀ w : List Char, ('(' :: (w ++ [')', ' ', '\x7b'])).getLast? = some '\x7b' := by
    intro w
    rw [← List.cons_append, List.getLast?_append_of_ne_nil _ (List.cons_ne_nil _ _)]
    rfl
  cases s with
  | assignment x e =>
    have hx : IsName x := h (.name x) (by simp [exprs])
    have hdrop := dropWhile_name hx (c := ' ') (by decide) (['=', ' '] ++ (e.written ++ [';']))
    refine ⟨_, _, by rw [written], by simp, ?_⟩
    rw [tagOf, List.cons_append, List.cons_append, List.cons_append, List.nil_append]
    rw [List.cons_append, List.cons_append, List.nil_append] at hdrop
    rw [hdrop]
    rfl
  | printNumber e =>
    exact ⟨_, _, by rw [written], by simp, by simp [tagOf, tag]⟩
  | printString e =>
    have he := e.not_mem_written (c := '?') (by decide) (h e (by simp [exprs]))
    exact ⟨_, _, by rw [written], by simp, by simp [tagOf, tag, he]⟩
  | printBool e => exact ⟨_, _, by rw [written], by simp, by simp [tagOf, tag]⟩
  | call i =>
    exact ⟨_, _, by rw [written], by simp, tagOf_call (h i.expr (by simp [exprs]))⟩
  | giveBack o =>
    cases o with
    | none => exact ⟨_, _, by rw [written], by simp, by simp [tagOf, tag]⟩
    | some e => exact ⟨_, _, by rw [written], by simp, tagOf_giveBack (h e (by simp [exprs]))⟩
  | loop e ss => exact ⟨_, _, by rw [written, CText.braced], by simp, by simp [tagOf, tag, hlast]⟩
  | branch e ss o =>
    cases o with
    | none => exact ⟨_, _, by rw [written, CText.braced], by simp, by simp [tagOf, tag, hlast]⟩
    | some ts => exact ⟨_, _, by rw [written], by simp, by simp [tagOf, tag, hlast]⟩

theorem tag_eq {s s' : Statement} (h : ∀ e ∈ s.exprs, e.Legible) (h' : ∀ e ∈ s'.exprs, e.Legible)
    {xs xs' : List (List Char)} (heq : s.written ++ xs = s'.written ++ xs') : s.tag = s'.tag := by
  obtain ⟨l, ls, hl, _, htag⟩ := exists_first fun e he => (h e he).spelled
  obtain ⟨l', ls', hl', _, htag'⟩ := exists_first fun e he => (h' e he).spelled
  rw [hl, hl', List.cons_append, List.cons_append] at heq
  obtain ⟨rfl, _⟩ := List.cons.inj heq
  exact htag.symm.trans htag'

theorem writtenAll_ne {ss : List Statement} (h : ∀ e ∈ exprsAll ss, e.Spelled) :
    writtenAll ss ≠ [[]] := by
  cases ss with
  | nil => simp [writtenAll]
  | cons s ss =>
    rw [exprsAll] at h
    obtain ⟨l, ls, hl, hne, _⟩ := exists_first (s := s) fun e he => h e (List.mem_append_left _ he)
    rw [writtenAll, hl]
    exact fun heq => hne (List.cons.inj heq).1

theorem exists_of_tag (s : Statement) : (s.tag = 0 → ∃ x e, s = .assignment x e) ∧
    (s.tag = 1 → ∃ e, s = .printNumber e) ∧ (s.tag = 2 → ∃ e, s = .printBool e) ∧
    (s.tag = 3 → ∃ e, s = .printString e) ∧ (s.tag = 4 → ∃ i, s = .call i) ∧
    (s.tag = 5 → s = .giveBack none) ∧ (s.tag = 6 → ∃ e ss, s = .loop e ss) ∧
    (s.tag = 7 → ∃ e ss o, s = .branch e ss o) ∧ (s.tag = 8 → ∃ e, s = .giveBack (some e)) := by
  cases s with
  | giveBack o => cases o <;> simp [tag]
  | _ => simp [tag]

theorem plain_eq_between {e e' : Expr} (h : e.Legible) (h' : e'.Legible) {l m : List Char}
    {xs xs' : List (List Char)} (heq : [l ++ (e.written ++ m)] ++ xs = [l ++ (e'.written ++ m)] ++ xs') :
    e.plain = e'.plain ∧ xs = xs' := by
  obtain ⟨hline, rfl⟩ := List.cons.inj heq
  exact ⟨Expr.plain_eq_of_written h h' (List.append_cancel_right (List.append_cancel_left hline)), rfl⟩

/-- Statements that are one expression between two texts. -/
theorem plain_eq_framed {f : Expr → Statement} {l m : List Char} (hwritten : ∀ e, (f e).written = [l ++ (e.written ++ m)])
    (hexprs : ∀ e, (f e).exprs = [e]) (hplain : ∀ e, (f e).plain = f e.plain) {e e' : Expr}
    (h : ∀ d ∈ (f e).exprs, d.Legible) (h' : ∀ d ∈ (f e').exprs, d.Legible) {xs xs' : List (List Char)}
    (heq : (f e).written ++ xs = (f e').written ++ xs') : (f e).plain = (f e').plain ∧ xs = xs' := by
  rw [hexprs, List.forall_mem_singleton] at h h'
  rw [hwritten, hwritten] at heq
  obtain ⟨hsame, rfl⟩ := plain_eq_between h h' heq
  rw [hplain, hplain, hsame]
  exact ⟨rfl, rfl⟩

def closing : Option (List Statement) → List (List Char)
  | none => [['\x7d']]
  | some ts => CText.braced ['\x7d', ' ', 'e', 'l', 's', 'e', ' '] (writtenAll ts)

theorem written_branch (e : Expr) (ss : List Statement) (o : Option (List Statement)) :
    (branch e ss o).written = (['i', 'f', ' ', '('] ++ (e.written ++ [')', ' ', '\x7b'])) ::
      (CText.inner (writtenAll ss) ++ closing o) := by
  cases o with
  | none =>
    rw [written, closing, CText.braced]
    simp
  | some ts => rw [written, closing]

theorem head_closing (o : Option (List Statement)) (xs : List (List Char)) :
    ∀ x ∈ (closing o ++ xs).head?, CText.isInner x = false := by
  cases o <;> simp [closing, CText.braced, CText.isInner]

theorem legible_branch {e : Expr} {ss : List Statement} {o : Option (List Statement)}
    (h : ∀ d ∈ (branch e ss o).exprs, d.Legible) : e.Legible ∧ ∀ d ∈ exprsAll ss, d.Legible := by
  refine List.forall_mem_cons.1 fun d hd => h d ?_
  cases o <;> rw [exprs]
  · exact hd
  · rw [← List.cons_append]
    exact List.mem_append_left _ hd

theorem branch_inj {e e' : Expr} {ss ss' : List Statement} {o o' : Option (List Statement)}
    {xs xs' : List (List Char)} (he : e.Legible) (he' : e'.Legible) (hss : ∀ d ∈ exprsAll ss, d.Legible)
    (hss' : ∀ d ∈ exprsAll ss', d.Legible)
    (heq : (branch e ss o).written ++ xs = (branch e' ss' o').written ++ xs') :
    e.plain = e'.plain ∧ writtenAll ss = writtenAll ss' ∧ closing o ++ xs = closing o' ++ xs' := by
  rw [written_branch, written_branch] at heq
  obtain ⟨hline, hrest⟩ := List.cons.inj heq
  rw [List.append_eq, List.append_eq, List.append_assoc, List.append_assoc] at hrest
  have hwritten := List.append_cancel_right (List.append_cancel_left hline)
  obtain ⟨hlines, hclosing⟩ := CText.inner_inj (writtenAll_ne fun d hd => (hss d hd).spelled)
    (writtenAll_ne fun d hd => (hss' d hd).spelled) (head_closing o xs) (head_closing o' xs') hrest
  exact ⟨Expr.plain_eq_of_written he he' hwritten, hlines, hclosing⟩

mutual

theorem plain_eq : (s s' : Statement) → (∀ e ∈ s.exprs, e.Legible) → (∀ e ∈ s'.exprs, e.Legible) →
    {xs xs' : List (List Char)} → s.written ++ xs = s'.written ++ xs' → s.plain = s'.plain ∧ xs = xs'
  | .assignment x e, s', h, h', xs, xs', heq => by
    have htag := tag_eq h h' heq
    obtain ⟨x', e', rfl⟩ := s'.exists_of_tag.1 htag.symm
    rw [exprs] at h h'
    have hx : IsName x := (h (.name x) (by simp)).spelled
    have hx' : IsName x' := (h' (.name x') (by simp)).spelled
    rw [written, written] at heq
    obtain ⟨hline, rfl⟩ := List.cons.inj heq
    obtain ⟨hname, hrest⟩ := append_inj_of_break Char.isLower hx.2 hx'.2 (by simp) (by simp) hline
    obtain rfl := String.toList_inj.1 hname
    have hwritten := List.append_cancel_right (List.append_cancel_left hrest)
    rw [plain, plain, Expr.plain_eq_of_written (h e (by simp)) (h' e' (by simp)) hwritten]
    exact ⟨rfl, rfl⟩
  | .printNumber e, s', h, h', xs, xs', heq => by
    have htag := tag_eq h h' heq
    obtain ⟨e', rfl⟩ := s'.exists_of_tag.2.1 htag.symm
    exact plain_eq_framed (f := .printNumber) (fun _ => by rw [written]) (fun _ => by rw [exprs])
      (fun _ => by rw [plain]) h h' heq
  | .printBool e, s', h, h', xs, xs', heq => by
    have htag := tag_eq h h' heq
    obtain ⟨e', rfl⟩ := s'.exists_of_tag.2.2.1 htag.symm
    exact plain_eq_framed (f := .printBool) (fun _ => by rw [written]) (fun _ => by rw [exprs])
      (fun _ => by rw [plain]) h h' heq
  | .printString e, s', h, h', xs, xs', heq => by
    have htag := tag_eq h h' heq
    obtain ⟨e', rfl⟩ := s'.exists_of_tag.2.2.2.1 htag.symm
    exact plain_eq_framed (f := .printString) (fun _ => by rw [written]) (fun _ => by rw [exprs])
      (fun _ => by rw [plain]) h h' heq
  | .call i, s', h, h', xs, xs', heq => by
    have htag := tag_eq h h' heq
    obtain ⟨i', rfl⟩ := s'.exists_of_tag.2.2.2.2.1 htag.symm
    rw [exprs] at h h'
    rw [written, written] at heq
    obtain ⟨hplain, rfl⟩ := plain_eq_between (l := []) (h _ (by simp)) (h' _ (by simp)) heq
    obtain ⟨hname, hargs⟩ := Expr.call.inj hplain
    rw [plain, plain, hname, hargs]
    exact ⟨rfl, rfl⟩
  | .giveBack none, s', h, h', xs, xs', heq => by
    have htag := tag_eq h h' heq
    obtain rfl := s'.exists_of_tag.2.2.2.2.2.1 htag.symm
    exact ⟨rfl, List.append_cancel_left heq⟩
  | .giveBack (some e), s', h, h', xs, xs', heq => by
    have htag := tag_eq h h' heq
    obtain ⟨e', rfl⟩ := s'.exists_of_tag.2.2.2.2.2.2.2.2 htag.symm
    exact plain_eq_framed (f := fun e => .giveBack (some e)) (fun _ => by rw [written]) (fun _ => by rw [exprs])
      (fun _ => by rw [plain]) h h' heq
  | .loop e ss, s', h, h', xs, xs', heq => by
    have htag := tag_eq h h' heq
    obtain ⟨e', ss', rfl⟩ := s'.exists_of_tag.2.2.2.2.2.2.1 htag.symm
    rw [exprs] at h h'
    rw [written, written] at heq
    obtain ⟨hhead, hlines, rfl⟩ := CText.braced_inj
      (writtenAll_ne fun d hd => (h d (List.mem_cons_of_mem _ hd)).spelled)
      (writtenAll_ne fun d hd => (h' d (List.mem_cons_of_mem _ hd)).spelled) heq
    have hwritten := List.append_cancel_right (List.append_cancel_left hhead)
    have hss := plainAll_eq ss ss' (fun d hd => h d (List.mem_cons_of_mem _ hd))
      (fun d hd => h' d (List.mem_cons_of_mem _ hd)) hlines
    rw [plain, plain, hss, Expr.plain_eq_of_written (h e (by simp)) (h' e' (by simp)) hwritten]
    exact ⟨rfl, rfl⟩
  | .branch e ss none, s', h, h', xs, xs', heq => by
    have htag := tag_eq h h' heq
    obtain ⟨e', ss', o, rfl⟩ := s'.exists_of_tag.2.2.2.2.2.2.2.1 htag.symm
    obtain ⟨he, hss⟩ := legible_branch h
    obtain ⟨he', hss'⟩ := legible_branch h'
    obtain ⟨hplain, hlines, hclosing⟩ := branch_inj he he' hss hss' heq
    have hblock := plainAll_eq ss ss' hss hss' hlines
    cases o with
    | none =>
      rw [plain, plain, hplain, hblock]
      exact ⟨rfl, List.append_cancel_left hclosing⟩
    | some ts => simp [closing, CText.braced] at hclosing
  | .branch e ss (some ts), s', h, h', xs, xs', heq => by
    have htag := tag_eq h h' heq
    obtain ⟨e', ss', o, rfl⟩ := s'.exists_of_tag.2.2.2.2.2.2.2.1 htag.symm
    obtain ⟨he, hss⟩ := legible_branch h
    obtain ⟨he', hss'⟩ := legible_branch h'
    obtain ⟨hplain, hlines, hclosing⟩ := branch_inj he he' hss hss' heq
    have hblock := plainAll_eq ss ss' hss hss' hlines
    cases o with
    | none => simp [closing, CText.braced] at hclosing
    | some ts' =>
      rw [exprs, ← List.cons_append] at h h'
      have hts : ∀ d ∈ exprsAll ts, d.Legible := fun d hd => h d (List.mem_append_right _ hd)
      have hts' : ∀ d ∈ exprsAll ts', d.Legible := fun d hd => h' d (List.mem_append_right _ hd)
      obtain ⟨_, hlines', rfl⟩ := CText.braced_inj (writtenAll_ne fun d hd => (hts d hd).spelled)
        (writtenAll_ne fun d hd => (hts' d hd).spelled) hclosing
      rw [plain, plain, hplain, hblock, plainAll_eq ts ts' hts hts' hlines']
      exact ⟨rfl, rfl⟩

theorem plainAll_eq : (ss ss' : List Statement) → (∀ e ∈ exprsAll ss, e.Legible) →
    (∀ e ∈ exprsAll ss', e.Legible) → writtenAll ss = writtenAll ss' → plainAll ss = plainAll ss'
  | [], [], _, _, _ => rfl
  | [], s' :: ss', _, _, heq => by
    rw [writtenAll, writtenAll] at heq
    exact absurd heq.symm (List.append_ne_nil_of_left_ne_nil s'.written_ne_nil _)
  | s :: ss, [], _, _, heq => by
    rw [writtenAll, writtenAll] at heq
    exact absurd heq (List.append_ne_nil_of_left_ne_nil s.written_ne_nil _)
  | s :: ss, s' :: ss', h, h', heq => by
    rw [exprsAll] at h h'
    rw [writtenAll, writtenAll] at heq
    obtain ⟨hs, hrest⟩ := plain_eq s s' (fun d hd => h d (List.mem_append_left _ hd))
      (fun d hd => h' d (List.mem_append_left _ hd)) heq
    have hss := plainAll_eq ss ss' (fun d hd => h d (List.mem_append_right _ hd))
      (fun d hd => h' d (List.mem_append_right _ hd)) hrest
    rw [plainAll, plainAll, hs, hss]

end

end Statement

theorem NameDef.toC_inj {d d' : NameDef} (h : d.toC = d'.toC) : d = d' := by
  obtain ⟨x, t⟩ := d
  obtain ⟨x', t'⟩ := d'
  rw [← String.toList_inj, toC, toC, String.toList_append, String.toList_append, String.toList_append,
    String.toList_append] at h
  have htype : t = t' := by
    cases t <;> cases t' <;> first | rfl | (simp [ValueType.toC] at h)
  subst htype
  have hname : x = x' := String.toList_inj.1 (List.append_cancel_left h)
  rw [hname]

theorem NameDef.declaration_inj {d d' : NameDef} (h : d.declaration = d'.declaration) : d = d' := by
  rw [← String.toList_inj, declaration, declaration, String.toList_append, String.toList_append] at h
  exact NameDef.toC_inj (String.toList_inj.1 (List.append_cancel_right h))

namespace ProgramBody

theorem declaredLines_inj {ds ds' : List NameDef} (h : declaredLines ds = declaredLines ds') : ds = ds' := by
  have hne : ∀ es : List NameDef, [[]] ≠ es.map fun d => d.declaration.toList := by
    intro es hes
    cases es with
    | nil => cases hes
    | cons e es => simp [NameDef.declaration] at hes
  have hinj : Function.Injective fun d : NameDef => d.declaration.toList :=
    fun _ _ hd => NameDef.declaration_inj (String.toList_inj.1 hd)
  unfold declaredLines at h
  split at h <;> split at h
  · simp_all
  · exact absurd h (hne ds')
  · exact absurd h.symm (hne ds)
  · exact List.map_injective_iff.2 hinj h

theorem declaredLines_ne_brace (ds : List NameDef) : ∀ l ∈ declaredLines ds, (l != ['\x7b']) = true := by
  unfold declaredLines
  split
  · decide
  · intro l hl
    obtain ⟨d, _, rfl⟩ := List.mem_map.1 hl
    cases h : d.type <;> simp [NameDef.declaration, NameDef.toC, ValueType.toC, h]

theorem plain_eq {b b' : ProgramBody} (h : ∀ e ∈ b.exprs, e.Legible) (h' : ∀ e ∈ b'.exprs, e.Legible)
    {head head' : List Char} {xs xs' : List (List Char)}
    (heq : b.written head ++ xs = b'.written head' ++ xs') :
    head = head' ∧ b.plain = b'.plain ∧ xs = xs' := by
  have hblock : ∀ e ∈ Statement.exprsAll b.block, e.Legible := fun e he => h e (List.mem_append_right _ he)
  have hblock' : ∀ e ∈ Statement.exprsAll b'.block, e.Legible :=
    fun e he => h' e (List.mem_append_right _ he)
  have hne : ∀ (ds : List NameDef) (head : List Char) (ls : List (List Char)),
      declaredLines ds ++ CText.braced head ls ≠ [[]] := by
    intro ds head ls heq
    have hlen := congrArg List.length heq
    have hpos := List.length_pos_iff.2 (declaredLines_ne_nil ds)
    simp [CText.braced] at hlen
    omega
  obtain ⟨hhead, hlines, rfl⟩ := CText.braced_inj (hne _ _ _) (hne _ _ _) heq
  obtain ⟨hdeclared, hrest⟩ := append_inj_of_break (fun l => l != ['\x7b']) (declaredLines_ne_brace _)
    (declaredLines_ne_brace _) (by simp [CText.braced]) (by simp [CText.braced]) hlines
  rw [← List.append_nil (CText.braced _ _), ← List.append_nil (CText.braced _ (Statement.writtenAll b'.block))]
    at hrest
  obtain ⟨_, hwritten, _⟩ := CText.braced_inj (Statement.writtenAll_ne fun d hd => (hblock d hd).spelled)
    (Statement.writtenAll_ne fun d hd => (hblock' d hd).spelled) hrest
  have hplain := Statement.plainAll_eq b.block b'.block hblock hblock' hwritten
  refine ⟨hhead, ?_, rfl⟩
  rw [plain, plain, hplain, declaredLines_inj hdeclared]

end ProgramBody

namespace FuncDef

theorem join_inj {c : Char} {sep : List Char} {ps qs : List (List Char)} (hps : ∀ p ∈ ps, c ∉ p ∧ p ≠ [])
    (hqs : ∀ q ∈ qs, c ∉ q ∧ q ≠ []) (h : Text.join (c :: sep) ps = Text.join (c :: sep) qs) : ps = qs := by
  -- what follows the first piece is empty or starts with the separator
  have hsplit : ∀ (p : List Char) (ps : List (List Char)), ∃ xs, Text.join (c :: sep) (p :: ps) = p ++ xs ∧
      (∀ x ∈ xs.head?, (x != c) = false) ∧ xs = if ps = [] then [] else c :: (sep ++ Text.join (c :: sep) ps) := by
    intro p ps
    cases ps with
    | nil => exact ⟨[], (List.append_nil p).symm, by simp, rfl⟩
    | cons q ps => exact ⟨c :: (sep ++ Text.join (c :: sep) (q :: ps)), by simp [Text.join], by simp, rfl⟩
  have hother : ∀ p : List Char, c ∉ p → ∀ a ∈ p, (a != c) = true := by
    intro p hp a ha
    exact bne_iff_ne.2 fun hac => hp (hac ▸ ha)
  induction ps generalizing qs with
  | nil =>
    cases qs with
    | nil => rfl
    | cons q qs =>
      obtain ⟨xs, hxs, _, _⟩ := hsplit q qs
      rw [hxs] at h
      exact absurd (List.append_eq_nil_iff.1 h.symm).1 (hqs q List.mem_cons_self).2
  | cons p ps ih =>
    obtain ⟨hp, htail⟩ := List.forall_mem_cons.1 hps
    obtain ⟨xs, hxs, hhead, hrest⟩ := hsplit p ps
    cases qs with
    | nil =>
      rw [hxs] at h
      exact absurd (List.append_eq_nil_iff.1 h).1 hp.2
    | cons q qs =>
      obtain ⟨hq, htail'⟩ := List.forall_mem_cons.1 hqs
      obtain ⟨ys, hys, hhead', hrest'⟩ := hsplit q qs
      rw [hxs, hys] at h
      obtain ⟨rfl, rfl⟩ := append_inj_of_break (fun a => a != c) (hother p hp.1) (hother q hq.1) hhead hhead' h
      rw [hrest'] at hrest
      split at hrest <;> split at hrest
      · simp_all
      · cases hrest
      · cases hrest
      · rw [ih htail htail' (List.append_cancel_left (List.cons.inj hrest).2).symm]

theorem parameterText_inj {ds ds' : List NameDef} (h : ∀ d ∈ ds, d.expr.Spelled)
    (h' : ∀ d ∈ ds', d.expr.Spelled) (heq : parameterText ds = parameterText ds') : ds = ds' := by
  have hpiece : ∀ es : List NameDef, (∀ d ∈ es, d.expr.Spelled) →
      ∀ p ∈ es.map (fun d => d.toC.toList), ',' ∉ p ∧ p ≠ [] := by
    intro es hes p hp
    obtain ⟨d, hd, rfl⟩ := List.mem_map.1 hp
    have hname : ',' ∉ d.name.toList := fun hc => absurd ((hes d hd).2 _ hc) (by decide)
    cases htype : d.type <;> simp [NameDef.toC, ValueType.toC, htype, hname]
  have hinj : Function.Injective fun d : NameDef => d.toC.toList :=
    fun _ _ hd => NameDef.toC_inj (String.toList_inj.1 hd)
  exact List.map_injective_iff.2 hinj (join_inj (hpiece ds h) (hpiece ds' h') heq)

theorem head_inj {f f' : FuncDef} (h : ∀ e ∈ f.exprs, e.Spelled) (h' : ∀ e ∈ f'.exprs, e.Spelled)
    (heq : f.head = f'.head) :
    f.name = f'.name ∧ f.parameters = f'.parameters ∧ f.result = f'.result := by
  rw [← String.toList_inj, toList_head, toList_head] at heq
  have hresult : f.result = f'.result := by
    -- the first letters of the types differ
    revert heq
    generalize f.result = r, f'.result = r'
    intro heq
    rcases r with _ | _ | _ | _ <;> rcases r' with _ | _ | _ | _ <;>
      first | rfl | (simp [resultText, ValueType.toC] at heq)
  rw [hresult] at heq
  have hrest := (List.cons.inj (List.append_cancel_left heq)).2
  have hx : IsName f.name := h (.name f.name) List.mem_cons_self
  have hx' : IsName f'.name := h' (.name f'.name) List.mem_cons_self
  obtain ⟨hname, hparams⟩ := append_inj_of_break Char.isLower hx.2 hx'.2 (by simp) (by simp) hrest
  refine ⟨String.toList_inj.1 hname, ?_, hresult⟩
  refine parameterText_inj (fun d hd => h _ ?_) (fun d hd => h' _ ?_)
    (List.append_cancel_right (List.cons.inj hparams).2)
  · exact List.mem_cons_of_mem _ (List.mem_append_left _ (List.mem_map_of_mem hd))
  · exact List.mem_cons_of_mem _ (List.mem_append_left _ (List.mem_map_of_mem hd))

theorem plain_eq {f f' : FuncDef} (h : ∀ e ∈ f.exprs, e.Legible) (h' : ∀ e ∈ f'.exprs, e.Legible)
    {xs xs' : List (List Char)} (heq : f.written ++ xs = f'.written ++ xs') :
    f.plain = f'.plain ∧ xs = xs' := by
  obtain ⟨hhead, hbody, rfl⟩ := ProgramBody.plain_eq (fun e he => h e (by simp [exprs, he]))
    (fun e he => h' e (by simp [exprs, he])) heq
  obtain ⟨hname, hparams, hresult⟩ := head_inj (fun e he => (h e he).spelled) (fun e he => (h' e he).spelled)
    (String.toList_inj.1 (List.append_cancel_right hhead))
  exact ⟨by rw [plain, plain, hname, hparams, hresult, hbody], rfl⟩

theorem plain_all {fs fs' : List FuncDef} (h : ∀ f ∈ fs, ∀ e ∈ f.exprs, e.Legible)
    (h' : ∀ f ∈ fs', ∀ e ∈ f.exprs, e.Legible) (heq : fs.flatMap written = fs'.flatMap written) :
    fs.map plain = fs'.map plain := by
  induction fs generalizing fs' with
  | nil =>
    cases fs' with
    | nil => rfl
    | cons f' fs' => cases heq
  | cons f fs ih =>
    cases fs' with
    | nil => cases heq
    | cons f' fs' =>
      obtain ⟨hf, hfs⟩ := List.forall_mem_cons.1 h
      obtain ⟨hf', hfs'⟩ := List.forall_mem_cons.1 h'
      rw [List.flatMap_cons, List.flatMap_cons] at heq
      obtain ⟨hplain, hrest⟩ := plain_eq hf hf' heq
      rw [List.map_cons, List.map_cons, hplain, ih hfs hfs' hrest]

end FuncDef

theorem Script.plain_eq {s s' : Script} (hfuns : ∀ f ∈ s.functions, ∀ e ∈ f.exprs, e.Legible)
    (hmain : ∀ e ∈ s.main.exprs, e.Legible) (hfuns' : ∀ f ∈ s'.functions, ∀ e ∈ f.exprs, e.Legible)
    (hmain' : ∀ e ∈ s'.main.exprs, e.Legible) (heq : s.written = s'.written) :
    (Phrase.script s).plain = (Phrase.script s').plain := by
  have hline : ∀ fs : List FuncDef, ∀ l ∈ fs.map (fun f => f.declaration.toList), (l != []) = true := by
    intro fs l hl
    obtain ⟨f, _, rfl⟩ := List.mem_map.1 hl
    simpa using f.declaration_ne_nil
  have hcomment : ∀ xs : List (List Char), ∀ l ∈ (Text.split '\n' CText.mainComment.toList ++ xs).head?,
      (l != []) = false := by
    have hsplit : Text.split '\n' CText.mainComment.toList = [] :: (Text.split '\n' CText.mainComment.toList).tail :=
      by decide +kernel
    rw [hsplit]
    simp
  obtain ⟨_, hrest⟩ := append_inj_of_break (fun l => l != []) (hline _) (hline _) (hcomment _)
    (hcomment _) (List.append_cancel_left heq)
  obtain ⟨_, hbody, hrest⟩ := ProgramBody.plain_eq hmain hmain' (List.append_cancel_left hrest)
  have hfs := FuncDef.plain_all hfuns hfuns' (List.append_cancel_left hrest)
  rw [Phrase.plain, Phrase.plain, hfs, hbody]

def Phrase.rule : Phrase → Nat
  | .script _ => 0
  | .funcDef _ => 1
  | .main _ => 2
  | .body _ => 3
  | .varDec _ => 4
  | .nameDef _ => 5
  | .varBlock _ => 6
  | .block _ => 7
  | .statement _ => 8
  | .expr _ => 9
  | .funcCall _ => 10

theorem Phrase.rule?_tree (p : Phrase) : p.tree.rule? = some (p.rule : Int) := by
  cases p with
  | statement s =>
    cases s with
    | branch e ss o => cases o <;> rw [tree, Statement.tree] <;> rfl
    | giveBack o => cases o <;> rw [tree, Statement.tree] <;> rfl
    | _ => rw [tree, Statement.tree]; rfl
  | expr e => cases e <;> rfl
  | _ => rfl

theorem Phrase.plain_eq {p p' : Phrase} (hrule : p.rule = p'.rule) (h : ∀ e ∈ p.exprs, e.Legible)
    (h' : ∀ e ∈ p'.exprs, e.Legible) (heq : p.written = p'.written) : p.plain = p'.plain := by
  cases p <;> cases p' <;> cases hrule
  case script s s' =>
    refine Script.plain_eq (fun f hf e he => h e ?_) (fun e he => h e (List.mem_append_right _ he))
      (fun f hf e he => h' e ?_) (fun e he => h' e (List.mem_append_right _ he)) heq
    · exact List.mem_append_left _ (List.mem_flatMap_of_mem hf he)
    · exact List.mem_append_left _ (List.mem_flatMap_of_mem hf he)
  case funcDef f f' =>
    have hplain := FuncDef.plain_eq h h' (congrArg (· ++ []) heq)
    rw [plain, plain, hplain.1]
  case main b b' =>
    have hplain := ProgramBody.plain_eq h h' (congrArg (· ++ []) heq)
    rw [plain, plain, hplain.2.1]
  case body b b' =>
    have hplain := ProgramBody.plain_eq h h' (congrArg (· ++ []) heq)
    rw [plain, plain, hplain.2.1]
  case varDec d d' =>
    rw [plain, plain, NameDef.declaration_inj (String.toList_inj.1 (List.cons.inj heq).1)]
  case nameDef d d' => rw [plain, plain, NameDef.toC_inj (String.toList_inj.1 (List.cons.inj heq).1)]
  case varBlock ds ds' => rw [plain, plain, ProgramBody.declaredLines_inj heq]
  case block ss ss' =>
    have hbraced := CText.braced_inj (Statement.writtenAll_ne fun d hd => (h d hd).spelled)
      (Statement.writtenAll_ne fun d hd => (h' d hd).spelled) (congrArg (· ++ []) heq)
    rw [plain, plain, Statement.plainAll_eq ss ss' h h' hbraced.2.1]
  case statement s s' =>
    have hplain := Statement.plain_eq s s' h h' (congrArg (· ++ []) heq)
    rw [plain, plain, hplain.1]
  case expr e e' =>
    rw [plain, plain, Expr.plain_eq_of_written (h e (List.mem_singleton_self e))
      (h' e' (List.mem_singleton_self e')) (List.cons.inj heq).1]
  case funcCall i i' =>
    have hplain := Expr.plain_eq_of_written (h _ (List.mem_singleton_self _))
      (h' _ (List.mem_singleton_self _)) (List.cons.inj heq).1
    obtain ⟨hname, hargs⟩ := Expr.call.inj hplain
    rw [plain, plain, hname, hargs]

end Throbac
