import Throbac.Grammar.Rules

/-!
# Tree patterns

A pattern is a text with tags between delimiters. A tag is a name, a colon and a label: the name
says which tokens or phrases the tag stands for. A tag without a colon is a label only, and cannot
be used. Text in front of the first tag is not accepted.

A tree matches the tree of a pattern if both have the same shape and their leaves agree: a leaf of
the pattern stands for its own text, and a tagged one for every token of its type. What a tag stood
for is kept under its name and its label.
-/
namespace Throbac

/-- The marks around a tag, and the mark that takes their meaning from them. -/
structure Delimiters where
  start : String := "<"
  stop : String := ">"
  escape : Option String := some "\\"
  deriving DecidableEq, Repr, Inhabited

namespace Delimiters

def ofMarks (start stop escape : Option String) : Except Fault Delimiters :=
  match start.getD "", stop.getD "" with
  | "", _ => .error (.emptyDelimiter true)
  | _, "" => .error (.emptyDelimiter false)
  | start, stop => .ok { start, stop, escape }

end Delimiters

inductive Chunk
  | text (content : String)
  | tag (name : Option String) (label : String)
  deriving DecidableEq, Repr, Inhabited

namespace Chunk

/-- The printed form; a tag without a name has none. -/
def display : Chunk → Except Fault String
  | text s => .ok ("'" ++ s ++ "'")
  | tag none _ => .error .wrongType
  | tag (some name) label => .ok (label ++ ":" ++ name)

def ofTag (content : List Char) : Chunk :=
  match content.dropWhile (· != ':') with
  | [] => tag none (String.ofList content)
  | _ :: label => tag (some (String.ofList (content.takeWhile (· != ':')))) (String.ofList label)

end Chunk

namespace Delimiters

/-- The places of start and stop marks. An escape in front of a mark takes it out; marks do not
overlap. -/
def marks (start stop escape : List Char) : (place skip : Nat) → List Char → List Nat × List Nat
  | _, _, [] => ([], [])
  | place, skip + 1, _ :: cs => marks start stop escape (place + 1) skip cs
  | place, 0, c :: cs =>
    let text := c :: cs
    if (escape ++ start).isPrefixOf text then
      marks start stop escape (place + 1) (escape.length + start.length - 1) cs
    else if (escape ++ stop).isPrefixOf text then
      marks start stop escape (place + 1) (escape.length + stop.length - 1) cs
    else if start.isPrefixOf text then
      let (starts, stops) := marks start stop escape (place + 1) (start.length - 1) cs
      (place :: starts, stops)
    else if stop.isPrefixOf text then
      let (starts, stops) := marks start stop escape (place + 1) (stop.length - 1) cs
      (starts, place :: stops)
    else marks start stop escape (place + 1) 0 cs

def without (mark : List Char) : (skip : Nat) → List Char → List Char
  | _, [] => []
  | skip + 1, _ :: cs => without mark skip cs
  | 0, c :: cs =>
    if !mark.isEmpty && mark.isPrefixOf (c :: cs) then without mark (mark.length - 1) cs
    else c :: without mark 0 cs

/-- The tags at the given places, with the text between any two and behind the last. -/
def pieces (d : Delimiters) (escape pattern : List Char) : List (Nat × Nat) → List Chunk
  | [] => []
  | (a, b) :: rest =>
    let cut (first last : Nat) := (pattern.drop first).take (last - first)
    let text (cs : List Char) := Chunk.text (String.ofList (without escape 0 cs))
    let next := b + d.stop.length
    let between := match rest with
      | (a', _) :: _ => [text (cut next a')]
      | [] => if next < pattern.length then [text (pattern.drop next)] else []
    .ofTag (cut (a + d.start.length) b) :: between ++ pieces d escape pattern rest

def split (d : Delimiters) (pattern : String) : Except Fault (List Chunk) := do
  let some escape := d.escape | throw .wrongType
  let cs := pattern.toList
  let (starts, stops) := marks d.start.toList d.stop.toList escape.toList 0 0 cs
  if starts.length > stops.length then throw (.unterminatedTag pattern)
  if starts.length < stops.length then throw (.missingTagStart pattern)
  let tags := starts.zip stops
  if tags.any fun (a, b) => a ≥ b then throw (.tagsOutOfOrder pattern)
  match starts with
  | [] => return [.text (String.ofList (without escape.toList 0 cs))]
  | 0 :: _ => return pieces d escape.toList cs tags
  | _ => throw .noMember

end Delimiters

/-- Reads patterns. Its recognizers may not be able to look names up; then no pattern can be read
further than its pieces. -/
structure PatternReader where
  delimiters : Delimiters := {}
  looksUp : Bool := false
  deriving DecidableEq, Repr, Inhabited

namespace PatternReader

/-- The tokens of a text or a tag. A tag with a capital is the name of a token; a small letter makes
it the name of a rule, for which there is no token. -/
def tokensOf (r : PatternReader) (pattern : String) : Chunk → Except Fault (List Token)
  | .text s => do
    if !r.looksUp then throw .noMember
    match Lexer.allTokens (Grammar.lexerOf s) with
    | .ok ts _ => return ts
    | .error e _ => throw e
  | .tag none _ => throw .wrongType
  | .tag (some name) label => do
    let some first := name.toList.head? | throw .outOfRange
    if Text.isCapital first then
      if !r.looksUp then throw .noMember
      match Grammar.symbolicNames.idxOf? name with
      | some (n + 1) => return [.ofTag ⟨name, some label⟩ (n + 1 : Nat)]
      | _ => throw (.unknownTokenTag name pattern)
    else if Text.isSmall first then
      if !r.looksUp then throw .noMember
      if Grammar.ruleNames.contains name then throw .wrongType
      throw (.unknownRuleTag name pattern)
    else throw (.invalidTag name pattern)

def tokens (r : PatternReader) (pattern : String) : Except Fault (List Token) := do
  return (← (← r.delimiters.split pattern).mapM (r.tokensOf pattern)).flatten

/-- What keeps a pattern from being parsed: no parser that reads tags can be started. -/
def obstacle (r : PatternReader) (pattern : String) : Fault :=
  match r.tokens pattern with
  | .error e => e
  | .ok _ => if r.looksUp then .cannotStart else .noMember

/-- The token that stands for a whole phrase. A phrase has no place in a stream of tokens, so there
is none even for a proper name. -/
def ruleTag (name : String) : Except Fault Token :=
  .error (if name.isEmpty then .emptyRuleTag else .noMember)

end PatternReader

/-- What the tags of a pattern stood for, under the names and labels in the order of their first
use. -/
abbrev Labels := List (String × List ParseTree)

namespace Labels

def add (key : String) (t : ParseTree) : Labels → Labels
  | [] => [(key, [t])]
  | (k, ts) :: rest => if k = key then (k, ts ++ [t]) :: rest else (k, ts) :: add key t rest

def all (ls : Labels) (key : String) : List ParseTree := (ls.lookup key).getD []

def last? (ls : Labels) (key : String) : Option ParseTree := (ls.all key).getLast?

end Labels

namespace ParseTree

mutual

/-- Puts a tag on the leaf with the number, counted from the left. -/
def tagLeaf (n : Nat) (tag : TokenTag) : ParseTree → ParseTree
  | leaf t e => if n = 0 then leaf (.ofTag tag t.type) e else leaf t e
  | node i cs => node i (tagLeafAmong n tag cs)

def tagLeafAmong (n : Nat) (tag : TokenTag) : List ParseTree → List ParseTree
  | [] => []
  | c :: cs =>
    if n < c.leaves.length then c.tagLeaf n tag :: cs
    else c :: tagLeafAmong (n - c.leaves.length) tag cs

end

/-- Makes a pattern of a tree by tagging some of its leaves. -/
def tagLeaves (t : ParseTree) (tags : List (Int × TokenTag)) : Except Fault ParseTree :=
  tags.foldlM (fun t (n, tag) =>
    match Sequence.resolve? t.leaves.length n with
    | some n => .ok (t.tagLeaf n tag)
    | none => .error .outOfRange) t

def fitsLeaf (t : ParseTree) (token pattern : Token) : StateM Labels Bool := do
  if token.type != pattern.type then return false
  match pattern.tag with
  | none => return token.text == pattern.text
  | some tag =>
    modify (Labels.add tag.name t)
    if let some label := tag.label then modify (Labels.add label t)
    return true

mutual

/-- The first place where a tree departs from a pattern. Phrases are compared by their parts
only. -/
def mismatch? (t : ParseTree) : (pattern : ParseTree) → StateM Labels (Option ParseTree)
  | leaf p _ =>
    match t with
    | leaf s _ => do return if ← t.fitsLeaf s p then none else some t
    | node .. => return some t
  | node _ ps =>
    match t with
    | leaf .. => return some t
    | node _ cs => if cs.length = ps.length then mismatchAmong? cs ps else return some t

def mismatchAmong? (ts : List ParseTree) : (patterns : List ParseTree) → StateM Labels (Option ParseTree)
  | [] => return none
  | p :: ps =>
    match ts with
    | [] => return none
    | t :: ts => do
      match ← mismatch? t p with
      | none => mismatchAmong? ts ps
      | found => return found

end

end ParseTree

structure TreeMatch where
  tree : ParseTree
  labels : Labels := []
  mismatch : Option ParseTree := none
  deriving Inhabited

namespace TreeMatch

/-- A match from its parts, of which the tree, the pattern and the labels must be there. -/
def ofParts (tree pattern : Option ParseTree) (labels : Option Labels)
    (mismatch : Option ParseTree) : Except Fault TreeMatch :=
  match tree, pattern, labels with
  | none, _, _ => .error (.nullMatchPart "tree")
  | _, none, _ => .error (.nullMatchPart "pattern")
  | _, _, none => .error (.nullMatchPart "labels")
  | some tree, some _, some labels => .ok { tree, labels, mismatch }

/-- Compares a tree with a pattern, if both are there. -/
def compare (tree pattern : Option ParseTree) : Except Fault TreeMatch :=
  match tree, pattern with
  | none, _ => .error (.nullMatchPart "tree")
  | _, none => .error (.nullMatchPart "patternTree")
  | some tree, some pattern =>
    let (mismatch, labels) := tree.mismatch? pattern []
    .ok { tree, labels, mismatch }

/-- The matches of a pattern below a path. Patterns know no paths, so there is no way to find them. -/
def findAll (_tree _pattern : ParseTree) (_path : String) : Except Fault (List TreeMatch) :=
  .error .noName

def succeeded (m : TreeMatch) : Bool := m.mismatch.isNone

def display (m : TreeMatch) : String :=
  "Match " ++ (if m.succeeded then "succeeded" else "failed") ++ s!"; found {m.labels.length} labels"

end TreeMatch

end Throbac
