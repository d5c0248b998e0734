import Throbac.Inspect.Trees
import Throbac.Program.Samples
import Throbac.Program.Translate
import Throbac.Tree.Path
import Throbac.Workload.Sources

/-!
# Measures

What the recognizers make of sources of a chosen size, in numbers and short texts. Every measure
starts with recognizers that have learned nothing.
-/
namespace Throbac.Workload

/-- Reads a source by a rule; the parser is asked for what it has become. -/
def parsed (src rule : String) : Except Interruption (ParseTree × Parser) :=
  match Grammar.parse rule none (Grammar.parserOf src) with
  | .ok t p => .ok (t, p)
  | .error e _ => .error e

/-- The length of the printed tree and the number of phrases at the top. -/
def parseScript (n : Nat) : Except Interruption Value := do
  let (t, _) ← parsed (script n) "script"
  let shown ← (Grammar.showTree t).mapError .fault
  return inspect [shown.length, t.children.length]

/-- How many tokens there are, how many of them the parser sees, the length of their texts, how much
the lexer had to tell, the mode it is left in, and the first and last token. -/
def tokenize (n : Nat) : Except Fault Value :=
  let work : StreamM Value := do
    TokenStream.fill
    let seen ← TokenStream.countOnChannel
    let text ← TokenStream.text none none
    let s ← get
    let (told, mode) := match s.source with
      | .lexer l => (l.reports.size, l.mode)
      | .list _ => (0, 0)
    return .list [inspect s.tokens.size, inspect seen, inspect text.length, inspect told,
      inspect mode, inspect s.tokens[0]?, inspect s.tokens.back?]
  match work { source := .lexer (Grammar.lexerOf (script n)) } with
  | .ok v _ => .ok v
  | .error e _ => .error e

/-- The texts of nested expressions as the parser read them. -/
def parseExpressions (n : Nat) : Except Interruption Value := do
  return inspect (← (List.range n).mapM fun i => do
    (← parsed (expression (i + 1)) "expr").1.text.mapError .fault)

def translateSamples (n : Nat) : Except Interruption Value := do
  let once ← samples.mapM fun s => (noted (translate s.source s.rule)).mapError fun
    | .interrupted i => i
    | .syntaxErrors .. | .noText => .fault .noKey
  return inspect (List.replicate n once).flatten

/-- The error logs of faulty sources, each as a whole and entry by entry; then how a parser that
gives up ends. -/
def logErrors (n : Nat) : Except Interruption Value := do
  let logs ← (List.range n).mapM fun i => do
    let (src, rule) := cycle faulty i
    let log : ErrorLog := ⟨(← parsed src rule).2.core.reports.toList⟩
    return Value.list [inspect log.display, inspect log.display, inspect log.entries.length,
      inspect (!log.entries.isEmpty)] :: log.entries.map fun r => inspect (ErrorLog.showEntry r)
  let (src, rule) := cycle faulty 0
  let last := match Grammar.parse rule none { Grammar.parserOf src with bails := true } with
    | .ok .. => Value.null
    | .error e _ => inspect e.title
  return .list (logs.flatten ++ [last])

def paths : List String := ["//expr", "//ID", "/script/main", "//statement/*", "//!funcCall",
  "//block//expr", "/script/funcDef/nameDef", "//*", "//NUMBER", "/script/*/body"]

/-- How many nodes and leaves each path finds; then the steps of the first path. -/
def findPaths (n : Nat) : Except Interruption Value := do
  let (t, _) ← parsed (script n) "script"
  let path (s : String) := (TreePath.ofString s).mapError Interruption.fault
  let counts ← paths.mapM fun s => do
    return Value.list [inspect s, inspect ((← path s).find t).length]
  let steps := (← path "//expr").map PathStep.display
  return .list (counts ++ [inspect steps])

/-- The name of the failure of some work; null if it succeeds. -/
def failureOf {α : Type} : Except Fault α → Value
  | .ok _ => .null
  | .error f => inspect f.kind.title

/-- Matches every expression of a program with the tree of the whole, then reads patterns good and
bad. -/
def matchPatterns (n : Nat) : Except Interruption Value := do
  let (t, _) ← parsed (script n) "script"
  let exprs := t.descendants.filter (ParseTree.isA .expr)
  let matched ← exprs.mapM fun x => do
    let m ← (TreeMatch.compare (some x) (some t)).mapError Interruption.fault
    return [Value.list [inspect m.succeeded, .null, inspect m.labels.length, inspect m.display],
      inspect m.succeeded]
  let d : Delimiters := {}
  let pieces (p : String) : Value := match d.split p with
    | .ok cs => .list (cs.map fun c => inspect c.display)
    | .error f => inspect f
  let count (p : String) : Value := inspect ((d.split p).map List.length)
  let tag (label : Option String) := Token.ofTag ⟨"ID", label⟩ 37
  let reader : PatternReader := {}
  return .list (matched.flatten ++ [
    inspect (reader.obstacle "<x:ID>").kind.title, failureOf (PatternReader.ruleTag "expr"),
    failureOf (TreeMatch.findAll t t "//expr"),
    pieces "plain \x7btext\x7d", count "\\<ID\\>", pieces "<lab:expr><x:ID>", count "<x:ID> y",
    failureOf (d.split "<ID"), failureOf (d.split "ID>"), failureOf (d.split "><"),
    failureOf (Delimiters.ofMarks none (some ">") none),
    failureOf (Delimiters.ofMarks (some "<") none none),
    failureOf (reader.tokens "<x:ID>"),
    .list [inspect (tag (some "lab")).display, inspect (tag (some "lab")).text,
      inspect (tag none).text, inspect (tag none).display]])

/-- Parses the tokens of a program from a list: the length of the tree's text, the number of tokens
and the name of the list. -/
def parseList (n : Nat) : Except Interruption Value := do
  let tokens ← match Lexer.allTokens (Grammar.lexerOf (script n)) with
    | .ok ts _ => pure ts
    | .error e _ => throw (.fault e)
  let source : ListSource := { tokens := tokens.toArray, name := some "inmem" }
  match Grammar.parse "script" none (.ofSpec Grammar.parserSpec { source := .list source }) with
  | .ok t _ =>
    let text ← t.text.mapError Interruption.fault
    let name ← source.sourceName.mapError Interruption.fault
    return .list [inspect (text.getD "").length, inspect tokens.length, inspect name]
  | .error e _ => throw e

def measures : Array (Nat → Value) := #[
  fun n => inspect (parseScript n), fun n => inspect (tokenize n),
  fun n => inspect (parseExpressions n), fun n => inspect (translateSamples n),
  fun n => inspect (logErrors n), fun n => inspect (findPaths n),
  fun n => inspect (matchPatterns n), fun n => inspect (parseList n)]

def measure (i n : Nat) : Value :=
  match measures[i]? with
  | some m => m n
  | none => inspect Fault.noMember

end Throbac.Workload
