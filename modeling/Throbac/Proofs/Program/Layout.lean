import Throbac.Proofs.Program.Unparse

/-!
# The lines of a generated text

The text of a program line by line. A block stands in braces, and its lines are indented; a block
without lines has an empty one. No line ends with a blank.
-/
namespace Throbac

namespace Text

variable {sep : List Char} {p : List Char} {ps qs : List (List Char)}

def glue (ls : List (List Char)) : String := String.ofList (join ['\n'] ls)

theorem join_cons_append (sep head p : List Char) (ps : List (List Char)) :
    head ++ join sep (p :: ps) = join sep ((head ++ p) :: ps) := by
  cases ps with
  | nil => rfl
  | cons q ps => simp only [join, List.append_assoc]

theorem not_mem_join {c : Char} (hsep : c ∉ sep) (h : ∀ p ∈ ps, c ∉ p) : c ∉ join sep ps := by
  induction ps with
  | nil => simp [join]
  | cons p ps ih =>
    obtain ⟨hp, hps⟩ := List.forall_mem_cons.1 h
    cases ps with
    | nil => exact hp
    | cons q ps => simp [join, hp, hsep, ih hps]

theorem join_append (hps : ps ≠ []) (hqs : qs ≠ []) :
    join sep (ps ++ qs) = join sep ps ++ (sep ++ join sep qs) := by
  induction ps with
  | nil => exact absurd rfl hps
  | cons p ps ih =>
    cases ps with
    | nil =>
      obtain ⟨q, qs, rfl⟩ := List.exists_cons_of_ne_nil hqs
      simp only [List.cons_append, List.nil_append, join, List.append_assoc]
    | cons p' ps =>
      have hrest := ih (List.cons_ne_nil _ _)
      simp only [List.cons_append, join, List.append_assoc] at hrest ⊢
      rw [hrest]

theorem join_concat_append (sep p q : List Char) (ps qs : List (List Char)) :
    join sep (ps ++ [p]) ++ join sep (q :: qs) = join sep (ps ++ (p ++ q) :: qs) := by
  cases ps with
  | nil => exact join_cons_append sep p q qs
  | cons r ps =>
    rw [join_append (List.cons_ne_nil _ _) (List.cons_ne_nil _ _),
      join_append (List.cons_ne_nil _ _) (List.cons_ne_nil _ _), ← join_cons_append, List.append_assoc,
      List.append_assoc]
    rfl

theorem join_flatten {pss : List (List (List Char))} (h : ∀ ps ∈ pss, ps ≠ []) :
    join sep (pss.map (join sep)) = join sep pss.flatten := by
  induction pss with
  | nil => rfl
  | cons ps pss ih =>
    obtain ⟨hps, hpss⟩ := List.forall_mem_cons.1 h
    cases pss with
    | nil => simp [join]
    | cons qs pss =>
      have hne : (qs :: pss).flatten ≠ [] := by
        rw [List.flatten_cons]
        exact List.append_ne_nil_of_left_ne_nil (hpss qs List.mem_cons_self) _
      have hrest := ih hpss
      rw [List.flatten_cons, join_append hps hne, ← hrest]
      simp only [List.map_cons, join, List.append_assoc]

theorem join_eq_intercalate (sep : List Char) (ps : List (List Char)) :
    join sep ps = sep.intercalate ps := by
  induction ps with
  | nil => rfl
  | cons p ps ih =>
    cases ps with
    | nil => simp [join]
    | cons q ps => simp only [join, ih, List.intercalate, List.intersperse, List.flatten_cons, List.append_assoc]

theorem unlines_eq (ls : List String) : unlines ls = glue (ls.map String.toList) := by
  rw [unlines, glue, ← String.toList_inj, String.toList_ofList, join_eq_intercalate]
  simp

theorem unlines_glue {lss : List (List (List Char))} (h : ∀ ls ∈ lss, ls ≠ []) :
    unlines (lss.map glue) = glue lss.flatten := by
  rw [unlines_eq, List.map_map, glue, glue, ← join_flatten h]
  simp [glue, Function.comp_def]

theorem lines_glue {ls : List (List Char)} (hne : ls ≠ []) (h : ∀ l ∈ ls, '\n' ∉ l) :
    lines (glue ls) = ls.map String.ofList := by
  rw [lines, glue, String.toList_ofList, split_join hne h]

theorem glue_inj (hne : ps ≠ []) (hne' : qs ≠ []) (hps : ∀ l ∈ ps, '\n' ∉ l) (hqs : ∀ l ∈ qs, '\n' ∉ l)
    (h : glue ps = glue qs) : ps = qs := by
  have hlines := congrArg (fun s : String => split '\n' s.toList) h
  simp only [glue, String.toList_ofList] at hlines
  rwa [split_join hne hps, split_join hne' hqs] at hlines

end Text

open Text (glue)

/-- A line without a break and without a blank at its end. -/
def Tidy (l : List Char) : Prop := '\n' ∉ l ∧ ∀ c ∈ l.getLast?, Text.isBlank c = false

instance (l : List Char) : Decidable (Tidy l) :=
  decidable_of_iff ('\n' ∉ l ∧ l.getLast?.all (fun c => !Text.isBlank c) = true) (by simp [Tidy, Option.all_eq_true])

theorem Tidy.append {l m : List Char} (hl : '\n' ∉ l) (hm : Tidy m) (hne : m ≠ []) : Tidy (l ++ m) := by
  refine ⟨by simp [hl, hm.1], ?_⟩
  rw [List.getLast?_append_of_ne_nil l hne]
  exact hm.2

namespace CText

def indented (l : List Char) : List Char := if l = [] then [] else ' ' :: ' ' :: ' ' :: ' ' :: l

def inner (ls : List (List Char)) : List (List Char) := (if ls = [] then [[]] else ls).map indented

def braced (head : List Char) (ls : List (List Char)) : List (List Char) :=
  (head ++ ['\x7b']) :: (inner ls ++ [['\x7d']])

theorem braced_ne_nil (head : List Char) (ls : List (List Char)) : braced head ls ≠ [] :=
  List.cons_ne_nil _ _

theorem trimEnd_indented {l : List Char} (h : Tidy l) :
    Text.trimEnd ("    " ++ String.ofList l) = String.ofList (indented l) := by
  have hblank : Text.isBlank ' ' = true := by decide
  rcases List.eq_nil_or_concat l with rfl | ⟨front, last, rfl⟩
  · decide
  · have hlast : Text.isBlank last = false := h.2 last (by simp)
    simp [Text.trimEnd, Text.dropEnd, indented, hlast]

theorem tidy_indented {l : List Char} (h : Tidy l) : Tidy (indented l) := by
  unfold indented
  split
  · exact ⟨by simp, by simp⟩
  · next hne =>
    refine ⟨by simp [h.1], ?_⟩
    intro c hc
    obtain ⟨d, hd⟩ := List.getLast?_isSome.2 hne |> Option.isSome_iff_exists.1
    refine h.2 c ?_
    simpa [List.getLast?_cons, hd] using hc

theorem tidy_inner {ls : List (List Char)} (h : ∀ l ∈ ls, Tidy l) : ∀ l ∈ inner ls, Tidy l := by
  intro l hl
  obtain ⟨k, hk, rfl⟩ := List.mem_map.1 hl
  refine tidy_indented ?_
  split at hk
  · rw [List.mem_singleton.1 hk]
    exact ⟨by simp, by simp⟩
  · exact h k hk

theorem tidy_braced {head : List Char} (hhead : '\n' ∉ head) {ls : List (List Char)}
    (h : ∀ l ∈ ls, Tidy l) : ∀ l ∈ braced head ls, Tidy l := by
  refine List.forall_mem_cons.2 ⟨⟨by simp [hhead], by simp [Text.isBlank]⟩, ?_⟩
  exact List.forall_mem_append.2 ⟨tidy_inner h, by simp [Tidy, Text.isBlank]⟩

theorem block_glue {ls : List (List Char)} (h : ∀ l ∈ ls, Tidy l) :
    CText.block (glue ls) = glue (braced [] ls) := by
  have hlines : (Text.lines (glue ls)).map (fun l => Text.trimEnd ("    " ++ l)) =
      (inner ls).map String.ofList := by
    unfold inner
    split
    · next hnil =>
      subst hnil
      decide
    · next hne =>
      rw [Text.lines_glue hne fun l hl => (h l hl).1, List.map_map, List.map_map]
      exact List.map_congr_left fun l hl => trimEnd_indented (h l hl)
  rw [CText.block, hlines, Text.unlines_eq]
  refine congrArg glue ?_
  simp [braced, Function.comp_def]

end CText

mutual

def Statement.written : Statement → List (List Char)
  | .assignment x e => [x.toList ++ ([' ', '=', ' '] ++ (e.written ++ [';']))]
  | .loop e ss => CText.braced (['w', 'h', 'i', 'l', 'e', ' ', '('] ++ (e.written ++ [')', ' ']))
      (Statement.writtenAll ss)
  | .branch e ss none =>
    CText.braced (['i', 'f', ' ', '('] ++ (e.written ++ [')', ' '])) (Statement.writtenAll ss)
  | .branch e ss (some ts) =>
    (['i', 'f', ' ', '('] ++ (e.written ++ [')', ' ', '\x7b'])) ::
      (CText.inner (Statement.writtenAll ss) ++
        CText.braced ['\x7d', ' ', 'e', 'l', 's', 'e', ' '] (Statement.writtenAll ts))
  | .printNumber e => [['p', 'r', 'i', 'n', 't', 'f', '(', '"', '%', 'd', '"', ',', ' '] ++
      (e.written ++ [')', ';'])]
  | .printString e => [['p', 'r', 'i', 'n', 't', 'f', '(', '"', '%', 's', '"', ',', ' '] ++
      (e.written ++ [')', ';'])]
  | .printBool e => [['p', 'r', 'i', 'n', 't', 'f', '(', '"', '%', 's', '"', ',', ' ', '('] ++
      (e.written ++ ")?\"True\":\"False\");".toList)]
  | .giveBack none => [['r', 'e', 't', 'u', 'r', 'n', ';']]
  | .giveBack (some e) => [['r', 'e', 't', 'u', 'r', 'n', ' '] ++ (e.written ++ [';'])]
  | .call i => [i.expr.written ++ [';']]

def Statement.writtenAll : List Statement → List (List Char)
  | [] => []
  | s :: ss => s.written ++ Statement.writtenAll ss

end

theorem Statement.written_ne_nil (s : Statement) : s.written ≠ [] := by
  cases s with
  | branch e ss ts => cases ts <;> simp [Statement.written, CText.braced]
  | giveBack e => cases e <;> simp [Statement.written]
  | _ => simp [Statement.written, CText.braced]

mutual

theorem Statement.tidy_written : (s : Statement) → (∀ e ∈ s.exprs, e.Spelled) → ∀ l ∈ s.written, Tidy l
  | .assignment x e, h => by
    rw [exprs] at h
    have hx := (Expr.name x).not_mem_written (c := '\n') (by decide) (h _ (by simp))
    have he := e.not_mem_written (c := '\n') (by decide) (h _ (by simp))
    rw [Expr.written] at hx
    simp only [Statement.written, List.mem_singleton, forall_eq, ← List.append_assoc]
    exact .append (by simp [hx, he]) (by decide +kernel) (by decide +kernel)
  | .loop e ss, h | .branch e ss none, h => by
    rw [exprs] at h
    have he := e.not_mem_written (c := '\n') (by decide) (h _ (by simp))
    rw [Statement.written]
    exact CText.tidy_braced (by simp [he]) (Statement.tidy_writtenAll ss fun d hd => h d (by simp [hd]))
  | .branch e ss (some ts), h => by
    rw [exprs] at h
    have he := e.not_mem_written (c := '\n') (by decide) (h _ (by simp))
    have hss := Statement.tidy_writtenAll ss fun d hd => h d (by simp [hd])
    have hts := Statement.tidy_writtenAll ts fun d hd => h d (by simp [hd])
    rw [Statement.written]
    refine List.forall_mem_cons.2 ⟨?_, List.forall_mem_append.2
      ⟨CText.tidy_inner hss, CText.tidy_braced (by decide) hts⟩⟩
    rw [← List.append_assoc]
    exact .append (by simp [he]) (by decide +kernel) (by decide +kernel)
  | .printNumber e, h | .printString e, h | .printBool e, h | .giveBack (some e), h => by
    rw [exprs] at h
    have he := e.not_mem_written (c := '\n') (by decide) (h _ (by simp))
    simp only [Statement.written, List.mem_singleton, forall_eq]
    rw [← List.append_assoc]
    exact .append (by simp [he]) (by decide +kernel) (by decide +kernel)
  | .giveBack none, h => by
    simp only [Statement.written, List.mem_singleton, forall_eq]
    decide +kernel
  | .call i, h => by
    rw [exprs] at h
    have he := i.expr.not_mem_written (c := '\n') (by decide) (h _ (by simp))
    simp only [Statement.written, List.mem_singleton, forall_eq]
    exact .append he (by decide +kernel) (by decide +kernel)

theorem Statement.tidy_writtenAll : (ss : List Statement) → (∀ e ∈ Statement.exprsAll ss, e.Spelled) →
    ∀ l ∈ Statement.writtenAll ss, Tidy l
  | [], _ => by simp [Statement.writtenAll]
  | s :: ss, h => by
    rw [exprsAll] at h
    rw [Statement.writtenAll]
    exact List.forall_mem_append.2 ⟨s.tidy_written fun d hd => h d (by simp [hd]),
      Statement.tidy_writtenAll ss fun d hd => h d (by simp [hd])⟩

end

/-! The text of a program that can be written has just these lines. -/

/-- Expressions that can be written, on one line each. -/
structure Expr.Printable (e : Expr) : Prop where
  spelled : e.Spelled
  short : e.Short

theorem Expr.Printable.toC {e : Expr} (h : e.Printable) : e.toC = .ok (String.ofList e.written) :=
  e.toC_of_short h.short

namespace Statement

theorem blockToC_of {ss : List Statement} (htidy : ∀ l ∈ writtenAll ss, Tidy l)
    (h : allToC ss = .ok (ss.map fun s => glue s.written)) :
    blockToC ss = .ok (glue (CText.braced [] (writtenAll ss))) := by
  have hall : (ss.map fun s => s.written).flatten = writtenAll ss := by
    clear h htidy
    induction ss with
    | nil => simp [writtenAll]
    | cons s ss ih => rw [List.map_cons, List.flatten_cons, ih, writtenAll]
  have hlines : Text.unlines (ss.map fun s => glue s.written) = glue (writtenAll ss) := by
    rw [← hall, ← Text.unlines_glue, List.map_map]
    · rfl
    · intro ls hls
      obtain ⟨s, _, rfl⟩ := List.mem_map.1 hls
      exact s.written_ne_nil
  rw [blockToC, h]
  refine congrArg Except.ok ?_
  rw [← CText.block_glue htidy, ← hlines]

theorem head_braced (head : List Char) (s : String) (hs : s.toList = head) (ls : List (List Char)) :
    s ++ glue (CText.braced [] ls) = glue (CText.braced head ls) := by
  rw [← String.toList_inj, String.toList_append, hs, glue, glue, String.toList_ofList,
    String.toList_ofList, CText.braced, CText.braced, Text.join_cons_append, List.nil_append]

theorem else_braced (head : List Char) (s : String) (hs : s.toList = head) (ls ls' : List (List Char)) :
    s ++ glue (CText.braced [] ls) ++ " else " ++ glue (CText.braced [] ls') =
      glue ((head ++ ['\x7b']) :: (CText.inner ls ++
        CText.braced ['\x7d', ' ', 'e', 'l', 's', 'e', ' '] ls')) := by
  have helse : " else " ++ glue (CText.braced [] ls') =
      glue (CText.braced [' ', 'e', 'l', 's', 'e', ' '] ls') := head_braced _ _ (by decide) ls'
  rw [head_braced head s hs, String.append_assoc, helse, ← String.toList_inj, String.toList_append]
  simp only [glue, String.toList_ofList, CText.braced]
  rw [← List.cons_append, Text.join_concat_append]
  rfl

mutual

theorem toC_eq : (s : Statement) → (∀ e ∈ s.exprs, e.Printable) → s.toC = .ok (glue s.written)
  | .assignment x e, h => by
    rw [exprs] at h
    rw [Statement.toC, (h e (by simp)).toC]
    exact Expr.ok_eq_ok_ofList (by simp [Statement.written, Text.join])
  | .loop e ss, h => by
    rw [exprs] at h
    rw [Statement.toC, (h e (by simp)).toC, blockToC_of _ (allToC_eq ss fun d hd => h d (by simp [hd]))]
    · exact congrArg Except.ok (by rw [Statement.written]; exact head_braced _ _ (by simp) _)
    · exact Statement.tidy_writtenAll ss fun d hd => (h d (by simp [hd])).spelled
  | .branch e ss none, h => by
    rw [exprs] at h
    rw [Statement.toC, (h e (by simp)).toC, blockToC_of _ (allToC_eq ss fun d hd => h d (by simp [hd]))]
    · exact congrArg Except.ok (by rw [Statement.written]; exact head_braced _ _ (by simp) _)
    · exact Statement.tidy_writtenAll ss fun d hd => (h d (by simp [hd])).spelled
  | .branch e ss (some ts), h => by
    rw [exprs] at h
    rw [Statement.toC, (h e (by simp)).toC, blockToC_of _ (allToC_eq ss fun d hd => h d (by simp [hd])),
      blockToC_of _ (allToC_eq ts fun d hd => h d (by simp [hd]))]
    · refine congrArg Except.ok ?_
      rw [Statement.written]
      refine (else_braced (['i', 'f', ' ', '('] ++ (e.written ++ [')', ' '])) _ (by simp) _ _).trans ?_
      simp
    · exact Statement.tidy_writtenAll ts fun d hd => (h d (by simp [hd])).spelled
    · exact Statement.tidy_writtenAll ss fun d hd => (h d (by simp [hd])).spelled
  | .printNumber e, h | .printString e, h | .printBool e, h | .giveBack (some e), h => by
    rw [exprs] at h
    rw [Statement.toC, (h e (by simp)).toC]
    exact Expr.ok_eq_ok_ofList (by simp [Statement.written, Text.join, CText.print])
  | .giveBack none, h => by
    rw [Statement.toC]
    exact Expr.ok_eq_ok_ofList (by simp [Statement.written, Text.join])
  | .call i, h => by
    rw [exprs] at h
    have hi : i.toC = .ok (String.ofList i.expr.written) := (h i.expr (by simp)).toC
    rw [Statement.toC, hi]
    exact Expr.ok_eq_ok_ofList (by simp [Statement.written, Text.join])

theorem allToC_eq : (ss : List Statement) → (∀ e ∈ exprsAll ss, e.Printable) →
    allToC ss = .ok (ss.map fun s => glue s.written)
  | [], _ => by rw [allToC]; rfl
  | s :: ss, h => by
    rw [exprsAll] at h
    rw [allToC, s.toC_eq fun d hd => h d (by simp [hd]), allToC_eq ss fun d hd => h d (by simp [hd])]
    rfl

end

end Statement

/-! The lines of whole programs. -/

theorem Text.glue_split (s : String) : glue (Text.split '\n' s.toList) = s := by
  rw [glue, Text.join_split, String.ofList_toList]

namespace ProgramBody

/-- The lines of the declared variables, at least one. -/
def declaredLines (ds : List NameDef) : List (List Char) :=
  if ds = [] then [[]] else ds.map fun d => d.declaration.toList

theorem declaredLines_ne_nil (ds : List NameDef) : declaredLines ds ≠ [] := by
  unfold declaredLines
  split
  · exact List.cons_ne_nil _ _
  · next h => exact fun hnil => h (List.map_eq_nil_iff.1 hnil)

def written (head : List Char) (b : ProgramBody) : List (List Char) :=
  CText.braced head (declaredLines b.declared ++ CText.braced [] (Statement.writtenAll b.block))

end ProgramBody

namespace FuncDef

def written (f : FuncDef) : List (List Char) := f.body.written (f.head.toList ++ [' '])

end FuncDef

namespace Script

def written (s : Script) : List (List Char) :=
  Text.split '\n' CText.opening.toList ++ (s.functions.map (fun f => f.declaration.toList) ++
    (Text.split '\n' CText.mainComment.toList ++
      (s.main.written ['v', 'o', 'i', 'd', ' ', 'm', 'a', 'i', 'n', '(', ')', ' '] ++
        (Text.split '\n' CText.functionsComment.toList ++ s.functions.flatMap FuncDef.written))))

end Script

def Phrase.written : Phrase → List (List Char)
  | .script s => s.written
  | .funcDef f => f.written
  | .main b => b.written ['v', 'o', 'i', 'd', ' ', 'm', 'a', 'i', 'n', '(', ')', ' ']
  | .body b => b.written []
  | .varDec d => [d.declaration.toList]
  | .nameDef d => [d.toC.toList]
  | .varBlock ds => ProgramBody.declaredLines ds
  | .block ss => CText.braced [] (Statement.writtenAll ss)
  | .statement s => s.written
  | .expr e => [e.written]
  | .funcCall i => [i.expr.written]

/-! No line has a break in it or ends with a blank. -/

theorem NameDef.not_mem_toC {d : NameDef} {c : Char} (hc : Expr.isForeign c = true)
    (h : d.expr.Spelled) : c ∉ d.toC.toList := by
  have hname : c ∉ d.name.toList := (Expr.name d.name).not_mem_written hc h
  have htype : c ∉ d.type.toC.toList := Expr.not_mem_of_any hc (by cases d.type <;> decide +kernel)
  have hblank : c ∉ " ".toList := Expr.not_mem_of_any hc (by decide +kernel)
  rw [toC, String.toList_append, String.toList_append]
  simp only [List.mem_append, not_or]
  exact ⟨⟨htype, hblank⟩, hname⟩

theorem NameDef.tidy_declaration {d : NameDef} (h : d.expr.Spelled) : Tidy d.declaration.toList := by
  rw [declaration, String.toList_append]
  exact .append (d.not_mem_toC (by decide) h) (by decide +kernel) (by decide +kernel)

theorem ProgramBody.tidy_declared {ds : List NameDef} (h : ∀ e ∈ ds.map NameDef.expr, e.Spelled) :
    ∀ l ∈ declaredLines ds, Tidy l := by
  unfold declaredLines
  split
  · exact List.forall_mem_singleton.2 (by decide)
  · intro l hl
    obtain ⟨d, hd, rfl⟩ := List.mem_map.1 hl
    exact NameDef.tidy_declaration (h _ (List.mem_map_of_mem hd))

theorem ProgramBody.tidy_inside {b : ProgramBody} (h : ∀ e ∈ b.exprs, e.Spelled) :
    ∀ l ∈ declaredLines b.declared ++ CText.braced [] (Statement.writtenAll b.block), Tidy l :=
  List.forall_mem_append.2 ⟨tidy_declared fun e he => h e (List.mem_append_left _ he),
    CText.tidy_braced (by simp) (Statement.tidy_writtenAll b.block fun e he =>
      h e (List.mem_append_right _ he))⟩

theorem ProgramBody.toC_eq {b : ProgramBody} (h : ∀ e ∈ b.exprs, e.Printable) :
    b.toC = .ok (glue (b.written [])) := by
  have hblock := Statement.blockToC_of
    (Statement.tidy_writtenAll b.block fun e he => (h e (List.mem_append_right _ he)).spelled)
    (Statement.allToC_eq b.block fun e he => h e (List.mem_append_right _ he))
  have hdeclared : NameDef.declarations b.declared = glue (declaredLines b.declared) := by
    rw [NameDef.declarations, Text.unlines_eq, declaredLines]
    split
    · next hnil => rw [hnil]; rfl
    · rw [List.map_map]; rfl
  have hlines : Text.unlines [glue (declaredLines b.declared),
      glue (CText.braced [] (Statement.writtenAll b.block))] = glue (declaredLines b.declared ++
        CText.braced [] (Statement.writtenAll b.block)) := by
    have hglue := Text.unlines_glue (List.forall_mem_cons.2 ⟨declaredLines_ne_nil b.declared,
      List.forall_mem_singleton.2 (CText.braced_ne_nil [] (Statement.writtenAll b.block))⟩)
    simpa using hglue
  rw [ProgramBody.toC, hblock, hdeclared]
  refine congrArg Except.ok ?_
  rw [hlines, CText.block_glue (tidy_inside fun e he => (h e he).spelled)]
  rfl

theorem ProgramBody.mainToC_eq {b : ProgramBody} (h : ∀ e ∈ b.exprs, e.Printable) :
    b.mainToC = .ok (glue (b.written ['v', 'o', 'i', 'd', ' ', 'm', 'a', 'i', 'n', '(', ')', ' '])) := by
  rw [ProgramBody.mainToC, ProgramBody.toC_eq h]
  exact congrArg Except.ok (Statement.head_braced _ _ (by decide) _)

theorem FuncDef.toC_eq {f : FuncDef} (h : ∀ e ∈ f.exprs, e.Printable) : f.toC = .ok (glue f.written) := by
  rw [FuncDef.toC, ProgramBody.toC_eq fun e he => h e (by simp [exprs, he])]
  exact congrArg Except.ok (Statement.head_braced _ _ (by simp) _)

theorem FuncDef.mapM_toC_eq {fs : List FuncDef} (h : ∀ f ∈ fs, ∀ e ∈ f.exprs, e.Printable) :
    fs.mapM FuncDef.toC = .ok (fs.map fun f => glue f.written) := by
  induction fs with
  | nil => rfl
  | cons f fs ih =>
    obtain ⟨hf, hfs⟩ := List.forall_mem_cons.1 h
    rw [List.mapM_cons, FuncDef.toC_eq hf, ih hfs]
    rfl

theorem Text.unlines_ne_empty (s t : String) (ls : List String) : Text.unlines (s :: t :: ls) ≠ "" := by
  intro h
  rw [unlines_eq, glue, ← String.toList_inj, String.toList_ofList] at h
  simp [join] at h

theorem Text.glue_ne_empty {l : List Char} (hl : l ≠ []) (ls : List (List Char)) : glue (l :: ls) ≠ "" := by
  intro h
  have hhead := head?_join ['\n'] ls hl
  rw [glue, ← String.toList_inj, String.toList_ofList] at h
  rw [h] at hhead
  obtain ⟨c, cs, rfl⟩ := List.exists_cons_of_ne_nil hl
  cases hhead

theorem Text.unlines_filter {lss : List (List (List Char))} (h : ∀ ls ∈ lss, ls = [] ∨ glue ls ≠ "") :
    Text.unlines ((lss.map glue).filter (· ≠ "")) = glue lss.flatten := by
  have hfilter : (lss.map glue).filter (· ≠ "") = (lss.filter (· ≠ [])).map glue := by
    rw [List.filter_map]
    refine congrArg (List.map glue) (List.filter_congr fun ls hls => ?_)
    rcases h ls hls with rfl | hne
    · decide
    · have hls : ls ≠ [] := fun hnil => hne (by rw [hnil]; rfl)
      simp [hne, hls]
  have hflatten : (lss.filter (· ≠ [])).flatten = lss.flatten := by
    clear h hfilter
    induction lss with
    | nil => rfl
    | cons ls lss ih =>
      rw [List.filter_cons]
      split
      · rw [List.flatten_cons, ih, List.flatten_cons]
      · next hls =>
        have hnil : ls = [] := by simpa using hls
        rw [ih, hnil, List.flatten_cons, List.nil_append]
  rw [hfilter, Text.unlines_glue fun ls hls => by simpa using (List.mem_filter.1 hls).2, hflatten]

theorem FuncDef.declaration_ne_nil (f : FuncDef) : f.declaration.toList ≠ [] := by
  rw [declaration, String.toList_append]
  exact List.append_ne_nil_of_right_ne_nil _ (by decide)

theorem Script.toC_eq {s : Script} (hfuns : ∀ f ∈ s.functions, ∀ e ∈ f.exprs, e.Printable)
    (hmain : ∀ e ∈ s.main.exprs, e.Printable) : s.toC = .ok (glue s.written) := by
  have hdeclarations : Text.unlines (s.functions.map FuncDef.declaration) =
      glue (s.functions.map fun f => f.declaration.toList) := by
    rw [Text.unlines_eq, List.map_map]
    rfl
  have hdefinitions : Text.unlines (s.functions.map fun f => glue f.written) =
      glue (s.functions.flatMap FuncDef.written) := by
    rw [List.flatMap_def, ← Text.unlines_glue, List.map_map]
    · rfl
    · intro ls hls
      obtain ⟨f, _, rfl⟩ := List.mem_map.1 hls
      exact CText.braced_ne_nil _ _
  have hfilled : ∀ ls ∈ [Text.split '\n' CText.opening.toList,
      s.functions.map fun f => f.declaration.toList, Text.split '\n' CText.mainComment.toList,
      s.main.written ['v', 'o', 'i', 'd', ' ', 'm', 'a', 'i', 'n', '(', ')', ' '],
      Text.split '\n' CText.functionsComment.toList, s.functions.flatMap FuncDef.written],
      ls = [] ∨ glue ls ≠ "" := by
    simp only [List.forall_mem_cons, Text.glue_split]
    refine ⟨.inr (Text.unlines_ne_empty _ _ _), ?_, .inr (Text.unlines_ne_empty _ _ _),
      .inr (Text.glue_ne_empty (by simp) _), .inr (Text.unlines_ne_empty _ _ _), ?_, by simp⟩
    · cases s.functions with
      | nil => exact .inl rfl
      | cons f fs => exact .inr (Text.glue_ne_empty f.declaration_ne_nil _)
    · cases s.functions with
      | nil => exact .inl rfl
      | cons f fs => exact .inr (Text.glue_ne_empty (by simp) _)
  have htext := Text.unlines_filter hfilled
  rw [Script.toC, FuncDef.mapM_toC_eq hfuns, ProgramBody.mainToC_eq hmain]
  refine congrArg Except.ok ?_
  rw [hdeclarations, hdefinitions, Script.written]
  simpa [Text.glue_split] using htext

namespace Phrase

theorem toC_eq {p : Phrase} (h : ∀ e ∈ p.exprs, e.Printable) : p.toC = .ok (glue p.written) := by
  cases p with
  | script s =>
    refine Script.toC_eq (fun f hf e he => h e ?_) fun e he => h e (List.mem_append_right _ he)
    exact List.mem_append_left _ (List.mem_flatMap_of_mem hf he)
  | funcDef f => exact FuncDef.toC_eq h
  | main b => exact ProgramBody.mainToC_eq h
  | body b => exact ProgramBody.toC_eq h
  | varDec d | nameDef d => exact Expr.ok_eq_ok_ofList rfl
  | varBlock ds =>
    refine congrArg Except.ok ?_
    rw [NameDef.declarations, Text.unlines_eq, written, ProgramBody.declaredLines]
    split
    · next hnil => rw [hnil]; rfl
    · rw [List.map_map]; rfl
  | block ss =>
    exact Statement.blockToC_of (Statement.tidy_writtenAll ss fun e he => (h e he).spelled)
      (Statement.allToC_eq ss h)
  | statement s => exact s.toC_eq h
  | expr e => exact (h e (List.mem_singleton_self e)).toC
  | funcCall i => exact (h i.expr (List.mem_singleton_self _)).toC

theorem written_ne_nil (p : Phrase) : p.written ≠ [] := by
  cases p with
  | script s =>
    obtain ⟨l, ls, hsplit⟩ := Text.exists_split '\n' CText.opening.toList
    rw [written, Script.written, hsplit]
    exact List.cons_ne_nil _ _
  | statement s => exact s.written_ne_nil
  | varBlock ds => exact ProgramBody.declaredLines_ne_nil ds
  | funcDef | main | body | varDec | nameDef | block | expr | funcCall => exact List.cons_ne_nil _ _

end Phrase

theorem ProgramBody.tidy_written {b : ProgramBody} (h : ∀ e ∈ b.exprs, e.Spelled) {head : List Char}
    (hhead : '\n' ∉ head) : ∀ l ∈ b.written head, Tidy l :=
  CText.tidy_braced hhead (tidy_inside h)

namespace FuncDef

/-- What stands between the parentheses of a function's head. -/
def parameterText (ds : List NameDef) : List Char := Text.join [',', ' '] (ds.map fun d => d.toC.toList)

def resultText (r : Option ValueType) : List Char := ((r.map ValueType.toC).getD "void").toList

theorem toList_head (f : FuncDef) :
    f.head.toList = resultText f.result ++ ' ' :: (f.name.toList ++ '(' :: (parameterText f.parameters ++ [')'])) := by
  simp [head, resultText, parameterText, Text.join_eq_intercalate, Function.comp_def]

theorem not_mem_parameterText {ds : List NameDef} {c : Char} (hc : Expr.isForeign c = true)
    (h : ∀ e ∈ ds.map NameDef.expr, e.Spelled) : c ∉ parameterText ds := by
  refine Text.not_mem_join ?_ fun p hp => ?_
  · simp only [List.mem_cons, List.not_mem_nil, or_false, not_or]
    exact ⟨Expr.ne_of_isForeign hc (by decide), Expr.ne_of_isForeign hc (by decide)⟩
  · obtain ⟨d, hd, rfl⟩ := List.mem_map.1 hp
    exact d.not_mem_toC hc (h _ (List.mem_map_of_mem hd))

theorem not_mem_head {f : FuncDef} {c : Char} (hc : Expr.isForeign c = true)
    (h : ∀ e ∈ f.exprs, e.Spelled) : c ∉ f.head.toList := by
  have hname : c ∉ f.name.toList := (Expr.name f.name).not_mem_written hc (h _ List.mem_cons_self)
  have hparams : c ∉ parameterText f.parameters := not_mem_parameterText hc fun e he =>
    h e (List.mem_cons_of_mem _ (List.mem_append_left _ he))
  have hresult : c ∉ resultText f.result := by
    refine Expr.not_mem_of_any hc ?_
    cases f.result with
    | none => decide +kernel
    | some t => cases t <;> decide +kernel
  have hblank : c ≠ ' ' := Expr.ne_of_isForeign hc (by decide)
  have hopen : c ≠ '(' := Expr.ne_of_isForeign hc (by decide)
  have hclose : c ≠ ')' := Expr.ne_of_isForeign hc (by decide)
  rw [toList_head]
  simp [hname, hparams, hresult, hblank, hopen, hclose]

theorem tidy_written {f : FuncDef} (h : ∀ e ∈ f.exprs, e.Spelled) : ∀ l ∈ f.written, Tidy l := by
  refine ProgramBody.tidy_written (fun e he => h e (by simp [exprs, he])) ?_
  simp [f.not_mem_head (c := '\n') (by decide) h]

end FuncDef

theorem Phrase.newline_not_mem {p : Phrase} (h : ∀ e ∈ p.exprs, e.Spelled) : ∀ l ∈ p.written, '\n' ∉ l := by
  cases p with
  | script s =>
    have hfuns : ∀ f ∈ s.functions, ∀ e ∈ f.exprs, e.Spelled := fun f hf e he =>
      h e (List.mem_append_left _ (List.mem_flatMap_of_mem hf he))
    have hmain : ∀ e ∈ s.main.exprs, e.Spelled := fun e he => h e (List.mem_append_right _ he)
    simp only [written, Script.written, List.forall_mem_append]
    refine ⟨fun l hl => Text.not_mem_of_mem_split hl, fun l hl => ?_,
      fun l hl => Text.not_mem_of_mem_split hl,
      fun l hl => (ProgramBody.tidy_written hmain (by decide) l hl).1,
      fun l hl => Text.not_mem_of_mem_split hl, fun l hl => ?_⟩
    · obtain ⟨f, hf, rfl⟩ := List.mem_map.1 hl
      rw [FuncDef.declaration, String.toList_append]
      simp [f.not_mem_head (c := '\n') (by decide) (hfuns f hf)]
    · obtain ⟨f, hf, hl⟩ := List.mem_flatMap.1 hl
      exact (f.tidy_written (hfuns f hf) l hl).1
  | funcDef f => exact fun l hl => (f.tidy_written h l hl).1
  | main b => exact fun l hl => (ProgramBody.tidy_written h (by decide) l hl).1
  | body b => exact fun l hl => (ProgramBody.tidy_written h (by simp) l hl).1
  | varDec d =>
    simp only [written, List.forall_mem_singleton]
    exact (NameDef.tidy_declaration (h d.expr (List.mem_singleton_self _))).1
  | nameDef d =>
    simp only [written, List.forall_mem_singleton]
    exact d.not_mem_toC (by decide) (h d.expr (List.mem_singleton_self _))
  | varBlock ds => exact fun l hl => (ProgramBody.tidy_declared h l hl).1
  | block ss => exact fun l hl => (CText.tidy_braced (by simp) (Statement.tidy_writtenAll ss h) l hl).1
  | statement s => exact fun l hl => (s.tidy_written h l hl).1
  | expr e =>
    simp only [written, List.forall_mem_singleton]
    exact e.not_mem_written (by decide) (h e (List.mem_singleton_self _))
  | funcCall i =>
    simp only [written, List.forall_mem_singleton]
    exact i.expr.not_mem_written (by decide) (h i.expr (List.mem_singleton_self _))

end Throbac
