import Throbac.Program.OfTree
import Throbac.Program.CText
import Throbac.Grammar.Rules
import Throbac.Parsing.Control

/-!
# From source to C

A source is parsed from a rule of the grammar and its tree turned into C text. A source with syntax
errors is not translated; the errors are given with the tree that recovery made of it.
-/
namespace Throbac

/-- The log of the syntax errors of a source, in the order they were found. -/
structure ErrorLog where
  entries : List Report := []
  deriving Inhabited

namespace ErrorLog

def showEntry : Report → String
  | .syntaxError line column message _ _ =>
    "line " ++ (line.map toString).getD "None" ++ s!" : {column} " ++ message
  | _ => ""

def display (log : ErrorLog) : String := Text.unlines (log.entries.map showEntry)

end ErrorLog

inductive Rejection
  | syntaxErrors (log : ErrorLog) (tree : ParseTree)
  /-- No text was made for the tree as a whole. -/
  | noText
  | interrupted (cause : Interruption)
  deriving Inhabited

/-- The tree that a parser gave, provided that it met no syntax errors. -/
def cleanTree : EStateM.Result Interruption Parser ParseTree → Except Rejection ParseTree
  | .error e _ => .error (.interrupted e)
  | .ok tree p =>
    if p.core.reports.isEmpty then .ok tree
    else .error (.syntaxErrors ⟨p.core.reports.toList⟩ tree)

/-- The tree of a parser's source, provided that it has no syntax errors. -/
def parseClean (p : Parser) (rule : String) : Except Rejection ParseTree :=
  cleanTree (Grammar.parse rule none p)

/-- The C text of a tree. Words and phrases of a general kind have none of their own; within any
other phrase a part may be missing. -/
def treeToC (t : ParseTree) : Except Rejection String :=
  match Phrase.ofTree? t with
  | none => .error (if t.kind?.all NodeKind.isGeneral then .noText else .interrupted (.fault .noKey))
  | some phrase => phrase.toC.mapError fun f => .interrupted (.fault f)

/-- The text of a translation, with a note in the place of a text that was not made. -/
def noted : Except Rejection String → Except Rejection String
  | .error .noText => .ok "No generated C found"
  | result => result

/-- A parser of the source that knows what an earlier one has learned. -/
def parserAfter (old : Option Parser) (src : String) : Parser :=
  (old.map (Grammar.parserOf src).adopt).getD (Grammar.parserOf src)

/-- The C text of a source read by the rule with the name, with what an earlier parser has learned;
the parser of the source is left for the next one. -/
def translateAfter (old : Option Parser) (src rule : String) : Except Rejection String × Parser :=
  let result := Grammar.parse rule none (parserAfter old src)
  (cleanTree result >>= treeToC, match result with | .ok _ p | .error _ p => p)

/-- The C text of the first source, read by the rule with the name. -/
def translate (src rule : String) : Except Rejection String := (translateAfter none src rule).1

end Throbac
