import Throbac.Network.Basic

/-!
# The lexical grammar

The words of the language as regular expressions over classes of characters, rule by rule in the
order of their priority. From them follows how a text is to be cut: at each place the longest prefix
that some rule matches, by the first such rule; where no rule matches, a stretch of the text is given
up as unreadable. Nothing here refers to a network or to a lexer.
-/
namespace Throbac

/-- The characters of some ranges, or those of none of them. -/
structure CharClass where
  negated : Bool := false
  ranges : List (Char × Char)
  deriving DecidableEq

namespace CharClass

def has (k : CharClass) (c : Char) : Bool :=
  (k.ranges.any fun r => r.1.toNat ≤ c.toNat && c.toNat ≤ r.2.toNat) != k.negated

def only (c : Char) : CharClass := { ranges := [(c, c)] }

end CharClass

inductive Pattern
  | empty
  | one (k : CharClass)
  | seq (p q : Pattern)
  | alt (p q : Pattern)
  | star (p : Pattern)
  | plus (p : Pattern)
  deriving DecidableEq

namespace Pattern

inductive Matches : Pattern → List Char → Prop
  | empty : Matches empty []
  | one {k : CharClass} {c : Char} : k.has c = true → Matches (one k) [c]
  | seq {p q : Pattern} {u v : List Char} : Matches p u → Matches q v → Matches (seq p q) (u ++ v)
  | left {p q : Pattern} {u : List Char} : Matches p u → Matches (alt p q) u
  | right {p q : Pattern} {u : List Char} : Matches q u → Matches (alt p q) u
  | none {p : Pattern} : Matches (star p) []
  | more {p : Pattern} {u v : List Char} :
    Matches p u → Matches (star p) v → Matches (star p) (u ++ v)
  | plus {p : Pattern} {u v : List Char} :
    Matches p u → Matches (star p) v → Matches (plus p) (u ++ v)

def nullable : Pattern → Bool
  | empty => true
  | one _ => false
  | seq p q => p.nullable && q.nullable
  | alt p q => p.nullable || q.nullable
  | star _ => true
  | plus p => p.nullable

theorem Matches.ne_nil {p : Pattern} {w : List Char} (h : Matches p w)
    (hn : p.nullable = false) : w ≠ [] := by
  induction h with
  | empty | none | more => simp [nullable] at hn
  | one => simp
  | @seq p q u v _ _ ihp ihq =>
    cases hp : p.nullable with
    | false => simp [ihp hp]
    | true => simp [ihq (by simpa [nullable, hp] using hn)]
  | left _ ih => exact ih (by simp_all [nullable])
  | right _ ih => exact ih (by simp_all [nullable])
  | plus _ _ ih => simp [ih hn]

def char (c : Char) : Pattern := one (.only c)

def word (cs : List Char) : Pattern := cs.foldr (fun c p => seq (char c) p) empty

/-- One of several patterns, of which there is at least one. -/
def choice (p : Pattern) : List Pattern → Pattern
  | [] => p
  | q :: ps => alt p (choice q ps)

end Pattern

/-- What becomes of a match. -/
inductive Fate
  /-- A token of the text proper. -/
  | keep
  /-- A token on the channel of remarks. -/
  | hide
  /-- No token. -/
  | drop
  deriving DecidableEq

structure LexRule where
  symbol : Int
  pattern : Pattern
  fate : Fate := .keep

namespace Lexicon

/-- The words that are written as they are, by symbol from 1 on. -/
def literals : List String := [
  "APUD", ",", "DEFINITIO", "PRAEBET", ">", "<", "MUTABILIS", ":", "VALORUM", "DUM", "SI", "ALUID",
  "NUMERUS.IMPRIMO", "LOCUTIO.IMPRIMO", "VERITAS.IMPRIMO", "REDEO", "(", ")", "NI", "NEGANS",
  "CONGERO", "PARTIO", "ADDO", "SUBTRAHO", "IUNGO", "IDEM", "NI.IDEM", "INFRA", "INFRA.IDEM",
  "SUPRA", "SUPRA.IDEM", "VOCO"]

open Pattern

def words (w : String) (ws : List String) : Pattern :=
  choice (word w.toList) (ws.map fun w => word w.toList)

def digit : Pattern :=
  words "NIL" ["I", "II", "III", "IV", "V", "VI", "VII", "VIII", "IX"]

def number : Pattern :=
  seq (char '.') (seq digit (seq (star (seq (char '.') digit)) (char '.')))

def string : Pattern :=
  seq (char '^') (seq (star (one { ranges := [('+', '+'), ('.', '.'), ('A', 'Z')] })) (char '^'))

def truth : Pattern := words "VERUM" ["FALSUM"]

def type : Pattern := words "NUMERUS" ["VERITAS", "LOCUTIO"]

def name : Pattern := plus (one { ranges := [('a', 'z')] })

def blank : Pattern := plus (one { ranges := [('\t', '\n'), ('\r', '\r'), (' ', ' ')] })

def comment : Pattern :=
  seq (char '/') (seq (char '/') (star (one { negated := true, ranges := [('\n', '\n'), ('\r', '\r')] })))

/-- The rules, the first of two that match alike before the other. -/
def rules : List LexRule :=
  (literals.zipIdx 1).map (fun (w, n) => { symbol := n, pattern := word w.toList }) ++ [
    { symbol := 33, pattern := number },
    { symbol := 34, pattern := string },
    { symbol := 35, pattern := truth },
    { symbol := 36, pattern := type },
    { symbol := 37, pattern := name },
    { symbol := 38, pattern := blank, fate := .drop },
    { symbol := 39, pattern := comment, fate := .hide }]

/-- Whether some rule matches the text or a continuation of it. -/
def Viable (u : List Char) : Prop := ∃ r ∈ rules, ∃ v, r.pattern.Matches (u ++ v)

theorem viable_nil : Viable [] := by
  have ha : Matches (.one { ranges := [('a', 'z')] }) ['a'] := .one (by decide)
  have hname : name.Matches ['a'] := Matches.plus ha .none
  exact ⟨{ symbol := 37, pattern := name }, by simp [rules], ['a'], hname⟩

theorem not_nullable {r : LexRule} (h : r ∈ rules) : r.pattern.nullable = false := by
  have hall : (rules.all fun r => !r.pattern.nullable) = true := by decide +kernel
  simpa using List.all_eq_true.1 hall r h

theorem symbol_pos {r : LexRule} (h : r ∈ rules) : 0 < r.symbol := by
  have hall : (rules.all fun r => decide (0 < r.symbol)) = true := by decide +kernel
  simpa using List.all_eq_true.1 hall r h

def FirstMatch (u : List Char) (r : LexRule) : Prop :=
  ∃ before after, rules = before ++ r :: after ∧ r.pattern.Matches u ∧
    ∀ s ∈ before, ¬ s.pattern.Matches u

/-- The longest prefix that some rule matches has `n` characters, and `r` is the first rule that
matches it. -/
structure LongestMatch (rest : List Char) (n : Nat) (r : LexRule) : Prop where
  le : n ≤ rest.length
  first : FirstMatch (rest.take n) r
  longest : ∀ m, n < m → m ≤ rest.length → ∀ s ∈ rules, ¬ s.pattern.Matches (rest.take m)

theorem LongestMatch.mem_rules {rest : List Char} {n : Nat} {r : LexRule}
    (h : LongestMatch rest n r) : r ∈ rules := by
  obtain ⟨before, after, hrules, _⟩ := h.first
  exact hrules ▸ List.mem_append_right _ List.mem_cons_self

theorem LongestMatch.pos {rest : List Char} {n : Nat} {r : LexRule} (h : LongestMatch rest n r) :
    0 < n := by
  obtain ⟨_, _, _, hm, _⟩ := h.first
  have hne := hm.ne_nil (not_nullable h.mem_rules)
  rcases Nat.eq_zero_or_pos n with rfl | hn
  · simp at hne
  · exact hn

/-- No rule matches any prefix, and the first `n` characters are given up: all through the first
character over which no rule can be extended, or all there are. -/
structure Unreadable (rest : List Char) (n : Nat) : Prop where
  pos : 0 < n
  le : n ≤ rest.length
  unmatched : ∀ m ≤ rest.length, ∀ s ∈ rules, ¬ s.pattern.Matches (rest.take m)
  viable : ∀ m < n, Viable (rest.take m)
  ends : ¬ Viable (rest.take n) ∨ n = rest.length

/-- A stretch of the text: where it starts, its characters, and the rule that matched it, if any. -/
structure Piece where
  start : Nat
  chars : List Char
  rule : Option LexRule

/-- How a text that stands at a position is cut into pieces. -/
inductive Cuts : Nat → List Char → List Piece → Prop
  | done {start : Nat} : Cuts start [] []
  | matched {start n : Nat} {rest : List Char} {r : LexRule} {ps : List Piece} :
    LongestMatch rest n r → Cuts (start + n) (rest.drop n) ps →
      Cuts start rest (⟨start, rest.take n, some r⟩ :: ps)
  | unreadable {start n : Nat} {rest : List Char} {ps : List Piece} :
    Unreadable rest n → Cuts (start + n) (rest.drop n) ps →
      Cuts start rest (⟨start, rest.take n, none⟩ :: ps)

end Lexicon

end Throbac
