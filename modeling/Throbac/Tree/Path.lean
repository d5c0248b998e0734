import Throbac.Grammar.Specs
import Throbac.Tree.Basic

/-!
# Paths in trees

A path is a sequence of steps, each to the parts of a node or, after a double slash, to the node and
everything below it, if it has parts. A step keeps rules or tokens of a name, or all of them; inverted it keeps the
rules or tokens of other names. A path starts above the root, at a node whose only part is the root.
Token names are looked up among the rules of the lexer, so a name behind a rule that makes no token
stands for the token after its own.
-/
namespace Throbac

inductive PathTest
  | rule (index : Int)
  | token (type : Int)
  | wildcard
  deriving DecidableEq, Repr, Inhabited

structure PathStep where
  test : PathTest
  word : String
  anywhere : Bool := false
  inverted : Bool := false
  deriving DecidableEq, Repr, Inhabited

abbrev TreePath := List PathStep

namespace PathStep

def display (s : PathStep) : String :=
  let sort := match s.test with
    | .rule _ => "Rule"
    | .token _ => "Token"
    | .wildcard => "Wildcard"
  "XPath" ++ sort ++ (if s.anywhere then "Anywhere" else "") ++ "Element["
    ++ (if s.inverted then "!" else "") ++ s.word ++ "]"

def keeps (s : PathStep) (t : ParseTree) : Bool :=
  match s.test, t with
  | .rule n, .node i _ => s.inverted != (i.kind.rule == n)
  | .token x, .leaf t _ => s.inverted != (t.type == x)
  | .wildcard, _ => !s.inverted
  | _, _ => false

end PathStep

/-- A node or leaf with its place: the positions of the parts that lead to it. -/
structure Located where
  place : List Nat
  tree : ParseTree
  deriving Inhabited

namespace Located

def children (l : Located) : List Located :=
  l.tree.children.zipIdx.map fun (t, i) => ⟨l.place ++ [i], t⟩

mutual

/-- A tree and all below it, each before its parts. -/
def below (place : List Nat) : ParseTree → List Located
  | .leaf t e => [⟨place, .leaf t e⟩]
  | .node i cs => ⟨place, .node i cs⟩ :: belowAll place 0 cs

def belowAll (place : List Nat) (i : Nat) : List ParseTree → List Located
  | [] => []
  | c :: cs => below (place ++ [i]) c ++ belowAll place (i + 1) cs

end

def descendants (l : Located) : List Located := below l.place l.tree

end Located

namespace PathStep

/-- Where a step leads from a node: from one without parts, nowhere. -/
def next (s : PathStep) (l : Located) : List Located :=
  if l.tree.children.isEmpty then []
  else (if s.anywhere then l.descendants else l.children).filter (s.keeps ·.tree)

/-- Where a step leads from several nodes, each place once. -/
def nextAll (s : PathStep) (ls : List Located) : List Located :=
  ls.foldl (fun found l =>
    (s.next l).foldl (fun found m =>
      if found.any (·.place == m.place) then found else found ++ [m]) found) []

end PathStep

namespace TreePath

def above (t : ParseTree) : Located := ⟨[], .node { kind := .bare, listed := true } [t]⟩

/-- The nodes and leaves that a path leads to, with their places. -/
def locate (path : TreePath) (t : ParseTree) : List Located :=
  path.foldl (fun ls s => s.nextAll ls) [above t]

def find (path : TreePath) (t : ParseTree) : List ParseTree := (path.locate t).map Located.tree

def stepOf (word : Token) (anywhere inverted : Bool) : Except Fault PathStep := do
  let text ← word.textOrFault
  if word.type = Grammar.pathWildcard then
    return { test := .wildcard, word := "*", anywhere, inverted }
  else if word.type = Grammar.pathToken ∨ word.type = Grammar.pathString then
    let type := if word.type = Grammar.pathToken then
        (Grammar.lexerRuleNames.idxOf? text).map (· + 1)
      else Grammar.literalNames.idxOf? text
    match type with
    | some n =>
      if n = 0 then throw (.unknownPathWord text word.index false)
      else return { test := .token n, word := text, anywhere, inverted }
    | none => throw (.unknownPathWord text word.index false)
  else
    match Grammar.ruleNames.idxOf? text with
    | some n => return { test := .rule n, word := text, anywhere, inverted }
    | none => throw (.unknownPathWord text word.index true)

def takeMark (p : Token → Bool) : List Token → Option Token × List Token
  | [] => (none, [])
  | t :: ts => if p t then (some t, ts) else (none, t :: ts)

def isWord (t : Token) : Bool :=
  [Grammar.pathToken, Grammar.pathRule, Grammar.pathWildcard, Grammar.pathString].contains t.type

/-- The steps that the tokens of a path spell: each a separator, a bang, both of which may be
missing, and a word. Marks at the end stand for nothing. -/
def ofTokens : Nat → List Token → Except Fault TreePath
  | 0, _ => .ok []
  | fuel + 1, ts => do
    let (separator, ts) := takeMark (fun t => t.type == Grammar.pathRoot
      || t.type == Grammar.pathAnywhere) ts
    let (bang, ts) := takeMark (·.type == Grammar.pathBang) ts
    match ts with
    | [] => return []
    | t :: rest =>
      if !isWord t then
        throw (.unknownPathElement ((Sequence.arrayAt? Grammar.pathSymbolicNames t.type).getD ""))
      let step ← stepOf t (separator.any (·.type == Grammar.pathAnywhere)) bang.isSome
      return step :: (← ofTokens fuel rest)

def ofString (s : String) : Except Fault TreePath :=
  match Lexer.allTokens (.ofSpec Grammar.pathSpec (some (.ofString s))) with
  | .error e _ => .error e
  | .ok ts _ => ofTokens (ts.length + 1) (ts.mapIdx fun i t => { t with index := i })

/-- The nodes and leaves that the path of a text leads to. -/
def findAll (t : ParseTree) (s : String) : Except Fault (List ParseTree) := do
  return (← ofString s).find t

end TreePath

end Throbac
