import Throbac.Proofs.Lexing.Match

/-!
# Tokens of a text

The tokens, remarks and reports that a text calls for, piece by piece, and the proof that a lexer
makes exactly these, one token for each call.
-/
namespace Throbac

open Lexing

def Fate.channel : Fate → Int
  | .hide => 1
  | _ => 0

namespace Lexicon

namespace Piece

/-- The token of a piece, unless the piece is dropped or unreadable. -/
def token? (src : List Char) (p : Piece) : Option Token :=
  match p.rule with
  | none => none
  | some r =>
    if r.fate = .drop then none
    else some {
      type := r.symbol, channel := r.fate.channel
      start := p.start, stop := (p.start : Int) + p.chars.length - 1
      line := some (lineAt src p.start), column := columnAt src p.start, source := some src.toArray }

def report? (src : List Char) (p : Piece) : Option Report :=
  match p.rule with
  | some _ => none
  | none => some (.syntaxError (some (lineAt src p.start)) (columnAt src p.start)
      ("token recognition error at: '" ++ Text.escape (String.ofList p.chars) ++ "'") none
      (some .unreadable))

end Piece

def eofToken (src : List Char) : Token where
  type := Symbol.eof
  channel := 0
  start := src.length
  stop := (src.length : Int) - 1
  line := some (lineAt src src.length)
  column := columnAt src src.length
  source := some src.toArray

end Lexicon

namespace Lexing

open Lexicon

/-- A lexer between two tokens, at a place of a text. -/
structure Between (net : Network) (src : List Char) (i : Nat) (l : Lexer) : Prop where
  ready : Ready net l
  stands : Stands src i l
  le : i ≤ src.length
  mode : l.mode = 0
  strict : l.spec.strict = false
  copyText : l.factory.copyText = false
  hitEof : l.hitEof = true → i = src.length

variable {net : Network} {l : Lexer} {src : List Char} {i : Nat}

theorem text_eq {n : Nat} (hi : i < src.length) :
    Chars.text src.toArray i ((i : Int) + n - 1) = String.ofList ((src.drop i).take n) := by
  have hfirst : ¬ ((i : Int) ≥ src.toArray.size) := by simp; omega
  have hcut : ∀ last : Int, last = (if (i : Int) + n - 1 ≥ src.toArray.size
      then (src.toArray.size : Int) - 1 else (i : Int) + n - 1) →
      (Sequence.arrayCut src.toArray i (last + 1)).toList = (src.drop i).take n := by
    intro last hlast
    simp only [List.size_toArray] at hlast
    have h0 : ¬ ((i : Int) < 0) := by omega
    have h1 : ¬ (last + 1 < 0) := by split at hlast <;> omega
    simp only [Sequence.arrayCut, Sequence.clamp, h0, h1, if_false, List.size_toArray]
    rw [List.extract_toArray, List.extract_eq_take_drop]
    have hi' : min (i : Int).toNat src.length = i := by omega
    rw [hi', List.take_eq_take_iff, List.length_drop]
    split at hlast <;> omega
  rw [Chars.text, if_neg hfirst, Chars.toString, hcut _ rfl]

/-- The lexer behind a match: whether the text is at its end is noted, and the match gives the type
unless an action has. -/
def typed (l : Lexer) (atEnd : Bool) (type : Int) : Lexer :=
  { l with
    hitEof := atEnd || l.hitEof
    type := if l.type = Symbol.invalid then type else l.type }

theorem setType_eq (hst : Stands src i l) (t : Int) :
    Lexer.setType t l = .ok (typed l (decide (src.length ≤ i)) t).type
      (typed l (decide (src.length ≤ i)) t) := by
  have hnext : (⟨src.toArray, i⟩ : CharStream).next = Symbol.eof ↔ src.length ≤ i := by
    refine ⟨fun hn => ?_, next_eof⟩
    by_contra hlt
    have hc := List.getElem?_eq_getElem (Nat.lt_of_not_le hlt)
    exact toNat_ne_eof _ ((next_char hc).symm.trans hn)
  simp only [Lexer.setType, Run.bind_ok hst.theInput, hnext, typed]
  by_cases h : src.length ≤ i <;> by_cases ht : l.type = Symbol.invalid <;>
    simp [h, ht, Run.map_apply]

def opened (l : Lexer) (i : Nat) : Lexer :=
  { l with
    token := none, channel := 0, tokenStart := i, tokenColumn := l.column, tokenLine := l.line
    text := none, type := Symbol.invalid }

/-- What one match does for a token that began at `i`: the match reaches to `j`. -/
structure Attempt (net : Network) (src : List Char) (i j : Nat) (l l' : Lexer) : Prop where
  between : Between net src j l'
  token : l'.token = none
  text : l'.text = none
  tokenStart : l'.tokenStart = i
  tokenLine : l'.tokenLine = lineAt src i
  tokenColumn : l'.tokenColumn = columnAt src i

/-- The ways in which one match for a token can end. -/
inductive Round (net : Network) (src : List Char) (i : Nat) (l : Lexer) : Bool → Lexer → Prop
  | kept {n : Nat} {r : LexRule} {l' : Lexer} : LongestMatch (src.drop i) n r → r.fate ≠ .drop →
    Attempt net src i (i + n) l l' → l'.type = r.symbol → l'.channel = r.fate.channel →
    l'.reports = l.reports → Round net src i l true l'
  | ended {l' : Lexer} : i = src.length → Attempt net src i i l l' → l'.type = Symbol.eof →
    l'.channel = 0 → l'.reports = l.reports → Round net src i l true l'
  | dropped {n : Nat} {r : LexRule} {l' : Lexer} : LongestMatch (src.drop i) n r → r.fate = .drop →
    Between net src (i + n) l' → l'.reports = l.reports → Round net src i l false l'
  | unreadable {n : Nat} {l' : Lexer} : Unreadable (src.drop i) n → Between net src (i + n) l' →
    l'.reports = l.reports.push (.syntaxError (some (lineAt src i)) (columnAt src i)
      ("token recognition error at: '" ++ Text.escape (String.ofList ((src.drop i).take n)) ++ "'")
      none (some .unreadable)) → Round net src i l false l'

def reported (l : Lexer) (r : Report) : Lexer := { l with reports := l.reports.push r }

/-- Giving up reports the characters from the start of the token through the next one and goes behind
it, if there is one. -/
theorem reject_eq {k : Nat} (hst : Stands src (i + k) l) (hi : i < src.length)
    (hk : i + k ≤ src.length) (hstart : l.tokenStart = i) (hstrict : l.spec.strict = false) :
    Lexer.reject l = .ok ⟨⟩ (moved (reported l (.syntaxError (some l.tokenLine) l.tokenColumn
      ("token recognition error at: '" ++ Text.escape (String.ofList ((src.drop i).take
        (min (k + 1) (src.length - i)))) ++ "'") none (some .unreadable))) src
      (i + min (k + 1) (src.length - i))) := by
  have htext : (⟨src.toArray, (i + k : Nat)⟩ : CharStream).text l.tokenStart ((i + k : Nat) : Int) =
      String.ofList ((src.drop i).take (min (k + 1) (src.length - i))) := by
    have h := text_eq (n := k + 1) hi
    rw [show (i : Int) + ((k + 1 : Nat) : Int) - 1 = ((i + k : Nat) : Int) by omega] at h
    rw [CharStream.text, hstart, h]
    congr 1
    rw [List.take_eq_take_iff, List.length_drop]
    omega
  simp only [Lexer.reject, Run.get_bind, Run.bind_ok hst.theInput, htext, Run.set_bind, hstrict,
    Bool.false_eq_true, if_false]
  by_cases hend : src.length ≤ i + k
  · have hlen : i + min (k + 1) (src.length - i) = i + k := by omega
    rw [next_eof hend, hlen]
    simp only [ne_eq, not_true_eq_false, if_false]
    exact congrArg (EStateM.Result.ok _)
      (Stands.moved_eq (l := reported l _) ⟨hst.input, hst.line, hst.column⟩).symm
  · have hlen : i + min (k + 1) (src.length - i) = i + k + 1 := by omega
    have hc := List.getElem?_eq_getElem (Nat.lt_of_not_le hend)
    rw [next_char hc, hlen]
    simp only [ne_eq, toNat_ne_eof, not_false_eq_true, if_true]
    exact Stands.consume ⟨hst.input, hst.line, hst.column⟩ hc

section Rounds

variable {rank : Nat → Nat} (hp : Plain net rank)
  (hs : spellsRules net net.state 0 rules = true) (ht : net.tokenTypes.isSome = true)
  (hmodes : net.modes = #[0])

theorem Between.typed (hb : Between net src i l) (hf : l.hitEof = false) {j : Nat}
    (hj : j ≤ src.length) {as : Array (Automaton LexConfigs)} (he : Extends net l.automata as)
    (f : Fate) (t : Int) :
    Attempt net src i j l (typed (f.apply (moved (grown (begun (opened l i) i) as) src j))
      (decide (src.length ≤ j)) t) := by
  have hr := hb.ready.extend he
  refine ⟨⟨⟨hr.network, hr.traced, hr.automata, hr.cached⟩, ⟨rfl, rfl, rfl⟩, hj, hb.mode, hb.strict,
    hb.copyText, fun h => ?_⟩, rfl, rfl, rfl, hb.stands.line, hb.stands.column⟩
  have h : (decide (src.length ≤ j) || l.hitEof) = true := h
  simp only [hf, Bool.or_false, decide_eq_true_eq] at h
  omega

omit hp hs ht hmodes in
theorem matchToken_of_once {u : Int} {l₁ : Lexer} {j : Nat} (fuel : Nat)
    (hu : Lexer.matchOnce (opened l i) = .ok u l₁) (hj : Stands src j l₁)
    (hmore : (typed l₁ (decide (src.length ≤ j)) u).type ≠ Lexer.moreType) :
    Lexer.matchToken (fuel + 1) (opened l i) =
      .ok (decide ((typed l₁ (decide (src.length ≤ j)) u).type ≠ Lexer.skipType))
        (typed l₁ (decide (src.length ≤ j)) u) := by
  have hbegin : ({ opened l i with type := Symbol.invalid } : Lexer) = opened l i := rfl
  simp only [Lexer.matchToken, Run.modify_bind, hbegin, Run.bind_ok hu,
    Run.bind_ok (setType_eq hj u), hmore, if_false]
  split <;> simp_all

theorem matchOnce_some {t : Int} {l' : Lexer} (hmode : l.mode = 0)
    (h : Lexer.matchIn 0 l = .ok (some t) l') : Lexer.matchOnce l = .ok t l' := by
  simp only [Lexer.matchOnce, Run.get_bind, hmode, Run.bind_ok h]
  rfl

theorem matchOnce_none {l' l'' : Lexer} (hmode : l.mode = 0)
    (h : Lexer.matchIn 0 l = .ok none l') (hr : Lexer.reject l' = .ok ⟨⟩ l'') :
    Lexer.matchOnce l = .ok Lexer.skipType l'' := by
  simp only [Lexer.matchOnce, Run.get_bind, hmode, Run.bind_ok h, Run.bind_ok hr]
  rfl

theorem matchToken_eq (hp : Plain net rank) (hs : spellsRules net net.state 0 rules = true)
    (ht : net.tokenTypes.isSome = true) (hmodes : net.modes = #[0]) (hb : Between net src i l)
    (hf : l.hitEof = false) (fuel : Nat) :
    ∃ b l', Lexer.matchToken (fuel + 1) (opened l i) = .ok b l' ∧ Round net src i l b l' := by
  have hst : Stands src i (opened l i) := ⟨hb.stands.input, hb.stands.line, hb.stands.column⟩
  have hr : Ready net (opened l i) :=
    ⟨hb.ready.network, hb.ready.traced, hb.ready.automata, hb.ready.cached⟩
  obtain ⟨as, t, l₀, hmatch, hext, hout⟩ := matchIn_eq hp hs ht hmodes hr hst hb.le
  cases hout with
  | @matched n r hlong =>
    have hj : i + n ≤ src.length := by
      have hn := hlong.le
      have hi := hb.le
      rw [List.length_drop] at hn
      omega
    have hatt := hb.typed hf hj hext r.fate r.symbol
    have hpos := symbol_pos hlong.mem_rules
    have htok := matchToken_of_once fuel (matchOnce_some hb.mode hmatch) (j := i + n) ⟨rfl, rfl, rfl⟩
    by_cases hd : r.fate = .drop
    · have htype : (typed (r.fate.apply (moved (grown (begun (opened l i) i) as) src (i + n)))
          (decide (src.length ≤ i + n)) r.symbol).type = Lexer.skipType := by
        simp [typed, Fate.apply, hd, Lexer.skipType, Symbol.invalid]
      refine ⟨_, _, htok ?_, ?_⟩
      · rw [htype]
        decide
      · rw [htype]
        exact .dropped hlong hd hatt.between rfl
    · have htype : (typed (r.fate.apply (moved (grown (begun (opened l i) i) as) src (i + n)))
          (decide (src.length ≤ i + n)) r.symbol).type = r.symbol := by
        simp [typed, Fate.apply, hd, moved, grown, begun, opened]
      refine ⟨_, _, htok ?_, ?_⟩
      · rw [htype, Lexer.moreType]
        omega
      · have hskip : r.symbol ≠ Lexer.skipType := by
          rw [Lexer.skipType]
          omega
        rw [htype, decide_eq_true hskip]
        refine .kept hlong hd hatt htype ?_ rfl
        cases hfate : r.fate <;> simp_all [typed, Fate.apply, Fate.channel, moved, grown, begun, opened]
  | ended hi =>
    have hatt := hb.typed hf hb.le hext .keep Symbol.eof
    have htok := matchToken_of_once fuel (matchOnce_some hb.mode hmatch) (j := i) ⟨rfl, rfl, rfl⟩
    refine ⟨_, _, htok (by simp [typed, moved, grown, begun, opened]; decide), ?_⟩
    exact .ended hi hatt rfl rfl rfl
  | @stuck k hk hunr =>
    have hi : i < src.length := by
      have := hunr.pos
      omega
    have hrej := reject_eq (l := moved (grown (begun (opened l i) i) as) src (i + k))
      (stands_moved _ _ _) hi hk rfl hb.strict
    have hatt := hb.typed hf (j := i + min (k + 1) (src.length - i)) (by omega) hext .keep Lexer.skipType
    have htok := matchToken_of_once fuel (matchOnce_none hb.mode hmatch hrej) (stands_moved _ _ _)
    refine ⟨_, _, htok (by simp [typed, moved, reported, grown, begun, opened]; decide), ?_⟩
    refine .unreadable hunr ⟨⟨hatt.between.ready.network, hatt.between.ready.traced,
      hatt.between.ready.automata, hatt.between.ready.cached⟩, ⟨rfl, rfl, rfl⟩, hatt.between.le,
      hb.mode, hb.strict, hb.copyText, hatt.between.hitEof⟩ ?_
    simp [typed, moved, reported, grown, begun, opened, hb.stands.line, hb.stands.column]

end Rounds

/-- The token in progress, what was told of the work and the numbers given out make no difference. -/
theorem Between.aside (hb : Between net src i l) (t : Option Token) (rs : Array Report)
    (tr : Array String) (n : Nat) :
    Between net src i { l with token := t, reports := rs, trace := tr, fresh := n } :=
  ⟨⟨hb.ready.network, hb.ready.traced, hb.ready.automata, hb.ready.cached⟩,
    ⟨hb.stands.input, hb.stands.line, hb.stands.column⟩, hb.le, hb.mode, hb.strict, hb.copyText,
    hb.hitEof⟩

def emitted (l : Lexer) (t : Token) : Lexer := { l with token := some t }

theorem Between.emitted (hb : Between net src i l) (t : Token) : Between net src i (emitted l t) :=
  hb.aside (some t) l.reports l.trace l.fresh

theorem emitEof_eq (hb : Between net src i l) (hi : i = src.length) :
    Lexer.emitEof l = .ok (eofToken src) (emitted l (eofToken src)) := by
  subst hi
  have hc : l.factory.create (some src.toArray) Symbol.eof none 0 src.length
      ((src.length : Int) - 1) (some l.line) l.column = eofToken src := by
    simp only [TokenFactory.create, hb.copyText, hb.stands.line, hb.stands.column]
    rfl
  simp only [Lexer.emitEof, Run.get_bind, Run.bind_ok hb.stands.theInput, hc]
  rfl

theorem emit_eq {j : Nat} {l₀ : Lexer} (ha : Attempt net src i j l₀ l) :
    Lexer.emit l = .ok
      { type := l.type, channel := l.channel, start := i, stop := (j : Int) - 1
        line := some (lineAt src i), column := columnAt src i, source := some src.toArray }
      (emitted l
        { type := l.type, channel := l.channel, start := i, stop := (j : Int) - 1
          line := some (lineAt src i), column := columnAt src i, source := some src.toArray }) := by
  have hc : l.factory.create (some src.toArray) l.type l.text l.channel l.tokenStart ((j : Int) - 1)
      (some l.tokenLine) l.tokenColumn =
      { type := l.type, channel := l.channel, start := i, stop := (j : Int) - 1
        line := some (lineAt src i), column := columnAt src i, source := some src.toArray } := by
    simp only [TokenFactory.create, ha.between.copyText, ha.text, ha.tokenStart, ha.tokenLine,
      ha.tokenColumn]
  simp only [Lexer.emit, Run.get_bind, Run.bind_ok ha.between.stands.theInput, hc]
  rfl

/-- What a call for the next token comes to: some pieces without a token, then a piece with one or
the end of the text. -/
structure Found (net : Network) (src : List Char) (i : Nat) (l : Lexer) (t : Token) (l' : Lexer)
    (ps : List Piece) (j : Nat) : Prop where
  between : Between net src j l'
  silent : ∀ p ∈ ps, p.token? src = none
  reports : l'.reports = l.reports ++ (ps.filterMap (·.report? src)).toArray
  cuts : (∃ p, p.token? src = some t ∧ p.report? src = none ∧ i < j ∧
      ∀ qs, Cuts j (src.drop j) qs → Cuts i (src.drop i) (ps ++ p :: qs)) ∨
    (j = src.length ∧ t = eofToken src ∧ Cuts i (src.drop i) ps)

theorem Found.cons {n : Nat} {t : Token} {l₀ l' : Lexer} {ps : List Piece} {p : Piece} {j : Nat}
    (h : Found net src (i + n) l₀ t l' ps j) (hp : p.token? src = none)
    (hr : l₀.reports = l.reports ++ (p.report? src).toList.toArray)
    (hc : ∀ qs, Cuts (i + n) (src.drop (i + n)) qs → Cuts i (src.drop i) (p :: qs)) :
    Found net src i l t l' (p :: ps) j := by
  refine ⟨h.between, by simpa [hp] using h.silent, ?_, ?_⟩
  · rw [h.reports, hr]
    cases hpr : p.report? src <;> simp [hpr]
  · rcases h.cuts with ⟨q, hq, hqr, hij, hqs⟩ | ⟨hj, ht, hps⟩
    · exact .inl ⟨q, hq, hqr, by omega, fun qs h => hc _ (hqs qs h)⟩
    · exact .inr ⟨hj, ht, hc _ hps⟩

section Calls

variable {rank : Nat → Nat} (hp : Plain net rank)
  (hs : spellsRules net net.state 0 rules = true) (ht : net.tokenTypes.isSome = true)
  (hmodes : net.modes = #[0])
include hp hs ht hmodes

theorem findToken_eq (fuel : Nat) (hb : Between net src i l) (hfuel : src.length < i + fuel) :
    ∃ t l' ps j, Lexer.findToken fuel l = .ok t l' ∧ Found net src i l t l' ps j := by
  induction fuel generalizing i l with
  | zero => have := hb.le; omega
  | succ fuel ih =>
    rw [Lexer.findToken, Run.get_bind]
    by_cases hf : l.hitEof = true
    · have hi := hb.hitEof hf
      rw [if_pos hf]
      refine ⟨_, _, [], i, emitEof_eq hb hi, hb.emitted _, by simp, by simp [emitted],
        .inr ⟨hi, rfl, ?_⟩⟩
      rw [hi, List.drop_length]
      exact .done
    · obtain ⟨b, l₀, htok, hround⟩ := matchToken_eq hp hs ht hmodes hb (by simpa using hf) fuel
      have hopen : Lexer.matchToken (fuel + 1) { l with
          token := none, channel := 0, tokenStart := i, tokenColumn := l.column
          tokenLine := l.line, text := none } = .ok b l₀ := htok
      rw [if_neg hf, Run.bind_ok hb.stands.theInput, Run.modify_bind, Run.bind_ok hopen]
      cases hround with
      | @kept n r l₀ hlong hdrop ha htype hchannel hreports =>
        rw [if_pos rfl, Run.get_bind, ha.token]
        refine ⟨_, _, [], i + n, emit_eq ha, ha.between.emitted _, by simp,
          by simp [emitted, hreports], .inl ⟨⟨i, (src.drop i).take n, some r⟩, ?_, rfl, ?_, ?_⟩⟩
        · have hn : min n (src.length - i) = n := Nat.min_eq_left (by simpa using hlong.le)
          simp [Piece.token?, hdrop, htype, hchannel, hn]
        · have := hlong.pos
          omega
        · intro qs hqs
          exact .matched hlong (by simpa using hqs)
      | @ended l₀ hi ha htype hchannel hreports =>
        rw [if_pos rfl, Run.get_bind, ha.token]
        refine ⟨_, _, [], i, emit_eq ha, ha.between.emitted _, by simp, by simp [emitted, hreports],
          .inr ⟨hi, ?_, ?_⟩⟩
        · simp [eofToken, htype, hchannel, hi]
        · rw [hi, List.drop_length]
          exact .done
      | @dropped n r l₀ hlong hdrop hb₀ hreports =>
        obtain ⟨t, l', ps, j, hfind, hfound⟩ := ih hb₀ (by have := hlong.pos; omega)
        refine ⟨t, l', _, j, hfind, hfound.cons (p := ⟨i, (src.drop i).take n, some r⟩)
          (by simp [Piece.token?, hdrop]) (by simp [hreports, Piece.report?]) fun qs hqs => ?_⟩
        exact .matched hlong (by simpa using hqs)
      | @unreadable n l₀ hunr hb₀ hreports =>
        obtain ⟨t, l', ps, j, hfind, hfound⟩ := ih hb₀ (by have := hunr.pos; omega)
        refine ⟨t, l', _, j, hfind, hfound.cons (p := ⟨i, (src.drop i).take n, none⟩)
          (by simp [Piece.token?]) (by simp [hreports, Piece.report?]) fun qs hqs => ?_⟩
        exact .unreadable hunr (by simpa using hqs)

end Calls

end Lexing

end Throbac
