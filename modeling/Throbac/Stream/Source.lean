import Throbac.Lexing.Lexer

/-!
# Sources of tokens

A source hands out tokens one after another, without end: behind its last token it gives the end of
the input again and again. Tokens come from a lexer or from a list made beforehand.
-/
namespace Throbac

structure ListSource where
  tokens : Array Token
  name : Option String := none
  pos : Nat := 0
  /-- The token at the end of the input, once it was handed out. -/
  ending : Option Token := none
  deriving Inhabited

namespace ListSource

/-- The token that tells where the source stands: the next one, or the end of the input. -/
def present (s : ListSource) : Option Token :=
  match s.tokens[s.pos]? with
  | some t => some t
  | none => s.ending

/-- The line of the next token. Behind the last one it is the line where that token ends. -/
def line (s : ListSource) : Except Fault (Option Int) :=
  match s.present, s.tokens.back? with
  | some t, _ => .ok t.line
  | none, none => .ok (some 1)
  | none, some t =>
    match t.text, t.line with
    | none, n => .ok n
    | some text, some n => .ok (some (n + text.toList.count '\n'))
    | some _, none => .error .wrongType

/-- The column of the next token. Behind the last one it is the column where that token ends. -/
def column (s : ListSource) : Int :=
  match s.present, s.tokens.back? with
  | some t, _ => t.column
  | none, none => 0
  | none, some t =>
    let behind := t.column + t.stop - t.start + 1
    match t.text with
    | none => behind
    | some text =>
      if text.toList.contains '\n' then (text.toList.reverse.takeWhile (· ≠ '\n')).length
      else behind

/-- The text that the tokens were cut from, if any. -/
def input (s : ListSource) : Option Chars :=
  match s.present with
  | some t => t.source
  | none => s.tokens.back?.bind Token.source

/-- The name of the source. A text has none to give. -/
def sourceName (s : ListSource) : Except Fault String :=
  match s.name, s.input with
  | some n, _ => .ok n
  | none, none => .ok "List"
  | none, some _ => .error .noMember

/-- The token made for the end of the input, which begins behind the last token. -/
def makeEnding (s : ListSource) : Except Fault Token := do
  let start := match s.tokens.back? with
    | some t => if t.stop = -1 then -1 else t.stop + 1
    | none => -1
  return ({} : TokenFactory).create s.input Symbol.eof (some "EOF") 0 start (max (-1) (start - 1))
    (← s.line) s.column

def next : EStateM Fault ListSource Token := do
  let s ← get
  match s.tokens[s.pos]?, s.ending with
  | some t, _ =>
    let last := s.pos + 1 = s.tokens.size ∧ t.isEof
    set { s with pos := s.pos + 1, ending := if last then some t else s.ending }
    return t
  | none, some t => return t
  | none, none =>
    let t ← MonadExcept.ofExcept s.makeEnding
    set { s with ending := some t }
    return t

/-- Numbers the token handed out last. The source keeps the number, so that the token has it when
it is handed out again. -/
def number (s : ListSource) (index : Int) : ListSource :=
  { s with
    tokens := s.tokens.modify (s.pos - 1) fun t =>
      if s.ending.isSome ∧ !t.isEof then t else { t with index }
    ending := s.ending.map ({ · with index }) }

end ListSource

inductive TokenSource
  | lexer (l : Lexer)
  | list (s : ListSource)
  deriving Inhabited

namespace TokenSource

def next : EStateM Fault TokenSource Token := fun s =>
  match s with
  | lexer l =>
    match Lexer.nextToken l with
    | .ok t l => .ok t (lexer l)
    | .error e l => .error e (lexer l)
  | list l =>
    match ListSource.next l with
    | .ok t l => .ok t (list l)
    | .error e l => .error e (list l)

def number (s : TokenSource) (index : Int) : TokenSource :=
  match s with
  | lexer l => lexer l
  | list l => list (l.number index)

/-- A bound on the number of tokens before the end of the input. -/
def remaining : TokenSource → Nat
  | lexer l =>
    match l.input with
    | some s => ((s.size : Int) - s.index).toNat + 1
    | none => 0
  | list l => l.tokens.size - l.pos + 1

def sourceName : TokenSource → Except Fault String
  | lexer _ => .error .noMember
  | list l => l.sourceName

end TokenSource

end Throbac
