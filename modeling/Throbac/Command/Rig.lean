import Throbac.Command.Console
import Throbac.Command.Options
import Throbac.Command.Paths
import Throbac.Program.Translate
import Throbac.Text.Decode
import Throbac.Tree.Layout

/-!
# The test rig

A command that reads texts by a rule of the grammar and shows what the recognizers make of them:
their tokens, the course of the parse, the tree. Errors go to the second channel. What one text
teaches the recognizers is kept for the next.
-/
namespace Throbac.Rig

/-- The names under which the recognizers of the language are found. -/
def installed : List String := ["ThrobacLexer.py", "ThrobacParser.py"]

structure Surroundings where
  program : String
  folder : String
  present : List String := installed
  /-- Whether recognizers are in the files with their names. -/
  loadable : Bool := true
  /-- The files that can be read, by their full paths. -/
  files : List (String × List Nat) := []
  input : String := ""
  deriving Inhabited

def flags : List Flag := [
  ⟨'t', "tree", "Print AST tree"⟩,
  ⟨'k', "tokens", "Show Tokens"⟩,
  ⟨'s', "sll", "Show SLL"⟩,
  ⟨'d', "diagnostics", "Enable diagnostics error listener"⟩,
  ⟨'a', "trace", "Enable Trace"⟩]

def usage (program : String) : String :=
  "Usage: " ++ program ++ " [options] Grammar_Name Start_Rule\n"

def showReport : Report → Option String
  | .syntaxError line column message _ _ =>
    some ("line " ++ (line.map toString).getD "None" ++ s!":{column} " ++ message)
  | _ => none

def parserFor (flags : List Char) (src : String) : Parser :=
  let p := Grammar.parserOf src
  let exact := flags.contains 'd'
  let mode := if flags.contains 's' then .sll else if exact then .exhaustive else .ll
  { p with core := { p.core with mode, diagnosis := if exact then some true else none } }

/-- Reads the text of a parser and writes down what is asked for. -/
def explore (flags : List Char) (rule : String) (parserName : String) : ParseM Unit := do
  Parser.onStream TokenStream.fill
  if flags.contains 'k' then
    (← get).core.stream.tokens.forM fun t => Parser.print t.display
  if rule = "tokens" then return
  Parser.setTracing (flags.contains 'a')
  if Grammar.ruleNames.contains rule then
    let tree ← Grammar.parse rule
    if flags.contains 't' then
      Parser.print (← Parser.ofFault (Grammar.showTree tree >>= Layout.layOut))
  else
    Parser.print ("[ERROR] Can't find start rule '" ++ rule ++ "' in parser '" ++ parserName ++ "'")

/-- Reads one text with what earlier parsers learned. -/
def process (flags : List Char) (rule parserName : String) (old : Option Parser) (src : String) :
    ConsoleM Parser := do
  let fresh := parserFor flags src
  let start := (old.map fresh.adopt).getD fresh
  let tell (p : Parser) : ConsoleM Unit := do
    p.printed.forM ConsoleM.print
    p.core.reports.forM fun r => (showReport r).forM ConsoleM.complain
  match explore flags rule parserName start with
  | .ok _ p => tell p; return p
  | .error e p => tell p; throw (.interrupted e)

/-- Leaves if there is no file with the name of a recognizer. The parser's absence is told by the
lexer's name too. -/
def require (s : Surroundings) (what name lexerFile : String) : ConsoleM Unit := do
  if !s.present.contains name then
    ConsoleM.print ("[ERROR] Can't find " ++ what ++ " file " ++ lexerFile ++ "!")
    ConsoleM.print s.folder
    ConsoleM.exit 1

def processFiles (s : Surroundings) (flags : List Char) (rule parserName : String)
    (names : List String) : ConsoleM Unit := do
  let _ ← names.foldlM (fun old name => do
    match s.files.lookup (Paths.within s.folder name) with
    | none =>
      ConsoleM.print ("[ERROR] file " ++ Paths.normalize name ++ " not exist")
      return old
    | some bytes =>
      match Codec.ascii.decode .strict bytes with
      | .error f => throw (.interrupted (.fault f))
      | .ok src => return some (← process flags rule parserName old src)) (none : Option Parser)

/-- Whether a command line makes the rig read its input. -/
def readsInput (args : List String) : Bool :=
  match Flag.read flags args with
  | .ok (some given) => given.words.length == 2
  | _ => false

def run (s : Surroundings) (args : List String) : ConsoleM Unit := do
  let manual := Flag.manual (usage s.program) flags
  match Flag.read flags args with
  | .error e =>
    ConsoleM.complain (usage s.program)
    ConsoleM.complain (s.program ++ ": error: " ++ e.message)
    ConsoleM.exit 2
  | .ok none =>
    ConsoleM.write manual
    ConsoleM.exit 0
  | .ok (some given) =>
    match given.words with
    | grammar :: rule :: names =>
      let lexerFile := grammar ++ "Lexer.py"
      require s "lexer" lexerFile lexerFile
      require s "parser" (grammar ++ "Parser.py") lexerFile
      if !s.loadable then throw (.interrupted (.fault .noMember))
      let parserName := grammar ++ "Parser"
      if names.isEmpty then
        let _ ← process given.flags rule parserName none s.input
        ConsoleM.exit 0
      processFiles s given.flags rule parserName names
    | _ =>
      ConsoleM.print "ERROR: You have to provide at least 2 arguments!"
      ConsoleM.write manual
      ConsoleM.exit 1

end Throbac.Rig
