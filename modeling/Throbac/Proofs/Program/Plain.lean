import Throbac.Proofs.C.Values
import Throbac.Proofs.Program.Comparison
import Throbac.Proofs.Program.Layout

/-!
# Plain expressions

Some expressions are written alike: a truth value and the number for it, numerals of the same value,
and the two words for negation. Of those that are written alike one is plain, and it can be read back
from the text.
-/
namespace Throbac

/-- The digit that a character of a decimal text stands for. -/
def Digit.ofChar (c : Char) : Digit := ⟨(c.toNat - 48) % 10, Nat.mod_lt _ (by decide)⟩

namespace Numeral

def ofNat (v : Nat) : Numeral := ⟨(Nat.toDigits 10 v).map Digit.ofChar⟩

theorem digits_ofNat_ne_nil (v : Nat) : (ofNat v).digits ≠ [] := by
  rw [ofNat, ne_eq, List.map_eq_nil_iff]
  exact Nat.toDigits_ne_nil

theorem value_ofNat (v : Nat) : (ofNat v).value = v := by
  have hfold : ∀ (cs : List Char) (a : Nat), (∀ c ∈ cs, c.isDigit = true) →
      (cs.map Digit.ofChar).foldl (fun w d => 10 * w + d.val) a = Nat.ofDigitChars 10 cs a := by
    intro cs
    induction cs with
    | nil => intro a _; rfl
    | cons c cs ih =>
      intro a h
      obtain ⟨hc, hcs⟩ := List.forall_mem_cons.1 h
      have hdigit := C.toNat_of_isDigit hc
      have hval : (Digit.ofChar c).val = c.toNat - '0'.toNat :=
        Nat.mod_eq_of_lt (by omega)
      rw [List.map_cons, List.foldl_cons, ih _ hcs, Nat.ofDigitChars_cons, hval]
  rw [value, ofNat, hfold _ 0 fun c hc => Nat.isDigit_of_mem_toDigits (by decide) (by decide) hc,
    Nat.ofDigitChars_toDigits (by decide) (by decide)]

end Numeral

namespace Expr

mutual

/-- The plain expression that is written in the same way. -/
def plain : Expr → Expr
  | .number n => .number (.ofNat n.value)
  | .string s => .string s
  | .bool b => .number (.ofNat b.toNat)
  | .name x => .name x
  | .parens e => .parens e.plain
  | .negation _ e => .negation .ni e.plain
  | .mulDiv op l r => .mulDiv op l.plain r.plain
  | .addSub op l r => .addSub op l.plain r.plain
  | .concatenation l r => .concatenation l.plain r.plain
  | .compare op l r => .compare op l.plain r.plain
  | .call f es => .call f (plainAll es)

def plainAll : List Expr → List Expr
  | [] => []
  | e :: es => e.plain :: plainAll es

end

mutual

theorem written_plain : (e : Expr) → e.plain.written = e.written
  | .number n => by rw [plain, written, written, Numeral.value_ofNat]
  | .string _ | .name _ => rfl
  | .bool b => by
    rw [plain, written, written, Numeral.value_ofNat]
    cases b <;> decide
  | .parens e | .negation _ e => by rw [plain, written, written, e.written_plain]
  | .mulDiv _ l r | .addSub _ l r | .concatenation l r | .compare _ l r => by
    rw [plain, written, written, l.written_plain, r.written_plain]
  | .call f es => by rw [plain, written, written, writtenAll_plainAll]

theorem writtenAll_plainAll : (es : List Expr) → writtenAll (plainAll es) = writtenAll es
  | [] => rfl
  | [e] => by rw [plainAll, plainAll, writtenAll, writtenAll, e.written_plain]
  | e :: e' :: es => by
    have hrest := writtenAll_plainAll (e' :: es)
    rw [plainAll] at hrest
    rw [plainAll, plainAll, writtenAll, writtenAll, hrest, e.written_plain]

end

mutual

theorem sound_plain : (e : Expr) → e.Sound → e.plain.Sound
  | .number n, _ => Numeral.digits_ofNat_ne_nil n.value
  | .string _, h | .name _, h => h
  | .bool b, _ => Numeral.digits_ofNat_ne_nil b.toNat
  | .parens e, h | .negation _ e, h => e.sound_plain h
  | .mulDiv _ l r, h | .addSub _ l r, h | .concatenation l r, h | .compare _ l r, h =>
    ⟨l.sound_plain h.1, r.sound_plain h.2⟩
  | .call _ es, h => ⟨h.1, soundAll_plainAll es h.2⟩

theorem soundAll_plainAll : (es : List Expr) → SoundAll es → SoundAll (plainAll es)
  | [], _ => trivial
  | e :: es, h => ⟨e.sound_plain h.1, soundAll_plainAll es h.2⟩

end

mutual

theorem Sound.spelled : (e : Expr) → e.Sound → e.Spelled
  | .number _, _ | .bool _, _ => trivial
  | .string _, h | .name _, h => h
  | .parens e, h | .negation _ e, h => Sound.spelled e h
  | .mulDiv _ l r, h | .addSub _ l r, h | .concatenation l r, h | .compare _ l r, h =>
    ⟨Sound.spelled l h.1, Sound.spelled r h.2⟩
  | .call _ es, h => ⟨h.1, SoundAll.spelled es h.2⟩

theorem SoundAll.spelled : (es : List Expr) → SoundAll es → SpelledAll es
  | [], _ => trivial
  | e :: es, h => ⟨Sound.spelled e h.1, SoundAll.spelled es h.2⟩

end

def unescaped : List Char → List Char
  | '\\' :: _ :: cs => '+' :: unescaped cs
  | c :: cs => c :: unescaped cs
  | [] => []

theorem unescaped_escaped {s : String} (h : IsText s) : unescaped (escaped s) = s.toList := by
  unfold escaped
  unfold IsText at h
  generalize s.toList = cs at h ⊢
  induction cs with
  | nil => rfl
  | cons c cs ih =>
    obtain ⟨hc, hcs⟩ := List.forall_mem_cons.1 h
    rw [List.flatMap_cons]
    split
    · next hplus => rw [List.cons_append, List.cons_append, List.nil_append, unescaped, ih hcs, hplus]
    · have hne : c ≠ '\\' := by
        rintro rfl
        revert hc
        decide
      rw [List.cons_append, List.nil_append, unescaped, ih hcs]
      exact fun _ _ hc _ => hne hc

end Expr

namespace C.Expression

mutual

/-- The plain expression whose image is the C expression. -/
def source : Expression → Expr
  | .name s => .name (String.ofList s)
  | .number s => .number (.ofNat (constant s))
  | .string s => .string (String.ofList (Expr.unescaped s))
  | .parens (.minus e) => .negation .ni e.source
  | .parens e => .parens e.source
  | .minus e => .negation .ni e.source
  | .binary op l r =>
    match op with
    | .times => .mulDiv .congero l.source r.source
    | .divided => .mulDiv .partio l.source r.source
    | .plus => .addSub .addo l.source r.source
    | .minus => .addSub .subtraho l.source r.source
    | .equal => .compare .idem l.source r.source
    | .unequal => .compare .niIdem l.source r.source
    | .less => .compare .infra l.source r.source
    | .atMost => .compare .infraIdem l.source r.source
    | .greater => .compare .supra l.source r.source
    | .atLeast => .compare .supraIdem l.source r.source
  | .call f es =>
    if f = Expr.joinName then
      match sources es with
      | [l, r] => .concatenation l r
      | ls => .call (String.ofList f) ls
    else .call (String.ofList f) (sources es)

def sources : List Expression → List Expr
  | [] => []
  | e :: es => e.source :: sources es

end

end C.Expression

namespace Expr

theorem image_ne_minus (e : Expr) (x : C.Expression) : e.image ≠ .minus x := by
  cases e <;> intro h <;> cases h

mutual

theorem source_image : (e : Expr) → e.Sound → e.image.source = e.plain
  | .number n, _ => by
    rw [image, imageBy, C.Expression.source, C.constant_toString]
    rfl
  | .string s, h => by
    rw [image, imageBy, C.Expression.source, unescaped_escaped h, String.ofList_toList]
    rfl
  | .bool b, _ => by cases b <;> rfl
  | .name x, _ => by
    rw [image, imageBy, C.Expression.source, String.ofList_toList]
    rfl
  | .parens e, h => by
    rw [image, imageBy, C.Expression.source]
    · exact congrArg Expr.parens (e.source_image h)
    · exact e.image_ne_minus
  | .negation _ e, h => congrArg (Expr.negation .ni) (e.source_image h)
  | .mulDiv op l r, h => by
    cases op <;> exact congrArg₂ (Expr.mulDiv _) (l.source_image h.1) (r.source_image h.2)
  | .addSub op l r, h => by
    cases op <;> exact congrArg₂ (Expr.addSub _) (l.source_image h.1) (r.source_image h.2)
  | .concatenation l r, h => by
    rw [image, imageBy, C.Expression.source, if_pos rfl]
    exact congrArg₂ Expr.concatenation (l.source_image h.1) (r.source_image h.2)
  | .compare op l r, h => by
    cases op <;> exact congrArg₂ (Expr.compare _) (l.source_image h.1) (r.source_image h.2)
  | .call f es, h => by
    have hne : f.toList ≠ joinName := by
      intro hf
      have hlower := h.1.2 '_' (by rw [hf]; decide)
      exact absurd hlower (by decide)
    rw [image, imageBy, C.Expression.source, if_neg hne, String.ofList_toList]
    exact congrArg (Expr.call f) (sources_imageAll es h.2)

theorem sources_imageAll : (es : List Expr) → SoundAll es → C.Expression.sources (imageAll es) = plainAll es
  | [], _ => rfl
  | e :: es, h => congrArg₂ List.cons (e.source_image h.1) (sources_imageAll es h.2)

end

/-- Expressions that can be read back from what is written for them. -/
structure Legible (e : Expr) : Prop where
  sound : e.Sound
  canonical : e.Canonical

theorem Legible.spelled {e : Expr} (h : e.Legible) : e.Spelled := Sound.spelled e h.sound

theorem plain_eq_of_written {e e' : Expr} (h : e.Legible) (h' : e'.Legible)
    (heq : e.written = e'.written) : e.plain = e'.plain := by
  have hlexemes : e.lexemes = e'.lexemes := by
    rw [← C.lexemes_written h.spelled, ← C.lexemes_written h'.spelled, heq]
  have hread := derives_imageBy Grouping.flat e h.canonical
  have hread' := derives_imageBy Grouping.flat e' h'.canonical
  rw [← hlexemes] at hread'
  have himage : e.image = e'.image := (hread.loosen (Nat.zero_le _)).unique Grouping.flat.level_lt
    (hread'.loosen (Nat.zero_le _))
  rw [← source_image e h.sound, himage, source_image e' h'.sound]

end Expr

end Throbac
