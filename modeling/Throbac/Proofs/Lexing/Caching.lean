import Throbac.Proofs.Lexing.Tokenization

/-!
# Matches do not depend on the cache

The automaton of a lexer only saves work. Whatever earlier texts have left in it, a match from any
place of a text gives the same symbol, reaches the same place, counts the same lines and columns and
does the same to the token in progress; where no rule matches, that does not depend on the cache
either. What a scan remembers is therefore described without the numbers of the automaton's states.
-/
namespace Throbac

namespace Lexing

variable {net : Network} {l : Lexer} {s : CharStream} {as bs : Array (Automaton LexConfigs)}

section Scanning

variable {rank : Nat → Nat} {rs : List LexRule} (hp : Plain net rank)
  (hs : spellsRules net net.state 0 rs = true) (ht : net.tokenTypes.isSome = true)
include hp hs ht

theorem conclude_const (h : Reading net s l) (m : Option Mark) (t : Int) :
    ∃ r l', l'.traced = false ∧ ∀ as acc, Serves net as → Recalls net rs (as.getD 0 {}) m acc →
      Lexer.conclude 0 acc t (grown l as) = .ok r (grown l' as) := by
  cases m with
  | none =>
    refine ⟨if t = Symbol.eof ∧ s.index = l.matchStart then some Symbol.eof else none, l, h.traced,
      fun as acc _ hm => ?_⟩
    cases hm
    exact conclude_none (l := grown l as) h.input t
  | some m =>
    rcases first_or_none rs m.text with ⟨before, r, after', hrs, hr, hb⟩ | hu
    · refine ⟨some r.symbol, r.fate.apply
        { l with input := some (s.seek m.index), line := m.line, column := m.column }, h.traced,
        fun as acc ha hm => ?_⟩
      cases hm with
      | some _ hk => exact (h.ready ha).conclude hp hs ht h.input hk hrs hr hb
    · refine ⟨none, l, h.traced, fun as acc ha hm => ?_⟩
      cases hm with
      | some hacc _ =>
        obtain ⟨r, hr, hmatch⟩ := hacc
        exact absurd hmatch (hu r hr)

theorem scanFrom_const (h : Reading net s l) :
    ∃ r l', l'.traced = false ∧ ∀ as n, Serves net as → Known net (as.getD 0 {}) n [] →
      ∃ bs, Lexer.scanFrom 0 n (grown l as) = .ok r (grown l' bs) ∧ Extends net as bs := by
  obtain ⟨s', l₁, m, -, h₁, hscan⟩ := scanFrom_scans hp hs ht h
  obtain ⟨r, l', htr, hend⟩ := conclude_const hp hs ht h₁ m s'.next
  refine ⟨r, l', htr, fun as n ha hk => ?_⟩
  obtain ⟨bs, acc, hrun, hext, hm⟩ := hscan as n ha hk
  exact ⟨bs, hrun.trans (hend bs acc (ha.extend hext) hm), hext⟩

theorem matchIn_const (hmodes : net.modes = #[0]) (h : Reading net s l) :
    ∃ r l', ∀ as, Serves net as →
      ∃ bs, Lexer.matchIn 0 (grown l as) = .ok r (grown l' bs) ∧ Extends net as bs := by
  have h₀ : Reading net s { l with matchMode := 0, matchStart := s.index } :=
    ⟨h.network, h.traced, h.input⟩
  obtain ⟨r, l', htr, hscan⟩ := scanFrom_const hp hs ht h₀
  refine ⟨r, l', fun as ha => ?_⟩
  suffices h : ∃ t l'', Lexer.matchIn 0 (grown l as) = .ok t l'' ∧ ∃ bs, t = r ∧ l'' = grown l' bs ∧
      Extends net as bs by
    obtain ⟨t, l'', hrun, bs, rfl, rfl, hext⟩ := h
    exact ⟨bs, hrun, hext⟩
  refine (h.ready ha).matchIn hp hs ht hmodes h.input fun cs n hext hk => ?_
  obtain ⟨bs, hrun, hext'⟩ := hscan cs n (ha.extend hext) hk
  exact ⟨r, _, hrun, htr, bs, rfl, rfl, hext.trans hext'⟩

end Scanning

end Lexing

namespace Grammar

open Lexing

/-- A match from any place of any text does not depend on what earlier texts have left in the cache:
it gives the same symbol, or fails, and leaves the lexer the same but for the cache itself. -/
theorem matchIn_of_lexed (l : Lexer) (s : CharStream) (hspec : l.spec = lexerSpec)
    (htraced : l.traced = false) (hinput : l.input = some s) :
    ∃ r l', ∀ as, Lexed as → ∃ bs, Lexer.matchIn 0 (grown l as) = .ok r (grown l' bs) := by
  have hread : Reading lexerNetwork s l := ⟨by rw [hspec, lexerSpec_network], htraced, hinput⟩
  obtain ⟨r, l', hmatch⟩ := matchIn_const lexerNetwork_plain lexerNetwork_spells
    lexerNetwork_tokenTypes lexerNetwork_modes hread
  refine ⟨r, l', fun as ha => ?_⟩
  obtain ⟨bs, hbs, _⟩ := hmatch as ha.serves
  exact ⟨bs, hbs⟩

/-- A match from behind the first letter, where a character stands that never has an edge. -/
theorem matchIn_of_lexed_accented :
    (lexerOf "aé").spec = lexerSpec ∧ ∃ r l', ∀ as, Lexed as →
      ∃ bs, Lexer.matchIn 0 (grown { lexerOf "aé" with input := some ⟨Chars.ofString "aé", 1⟩ } as) =
        .ok r (grown l' bs) :=
  ⟨rfl, matchIn_of_lexed _ ⟨Chars.ofString "aé", 1⟩ rfl rfl rfl⟩

end Grammar

end Throbac
