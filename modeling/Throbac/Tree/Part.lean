import Throbac.Tree.Basic

/-!
# Parts by name

The parts that phrases of each kind can be asked for. A part is a single token or phrase, or a list
of phrases.
-/
namespace Throbac

inductive PartQuery
  | token (type : Int)
  | phrase (kind : NodeKind)
  | phrases (kind : NodeKind)
  deriving DecidableEq, Repr, Inhabited

namespace NodeKind

def parts : NodeKind → List (String × PartQuery)
  | script => [("funcDef", .phrases funcDef), ("main", .phrase main), ("EOF", .token (-1))]
  | funcDef => [("ID", .token 37), ("TYPE", .token 36), ("body", .phrase body),
      ("nameDef", .phrases nameDef)]
  | main => [("body", .phrase body)]
  | body => [("varBlock", .phrase varBlock), ("block", .phrase block)]
  | varDec => [("nameDef", .phrase nameDef)]
  | nameDef => [("ID", .token 37), ("TYPE", .token 36)]
  | varBlock => [("varDec", .phrases varDec)]
  | block => [("statement", .phrases statement)]
  | printNumber | printString | printBool | giveBack | parens | negation => [("expr", .phrase expr)]
  | assignment => [("ID", .token 37), ("expr", .phrase expr)]
  | loop => [("expr", .phrase expr), ("block", .phrase block)]
  | branch => [("expr", .phrase expr), ("block", .phrases block)]
  | funcCallStmt | funcCallExpr => [("funcCall", .phrase funcCall)]
  | mulDiv | addSub | concatenation | compare => [("expr", .phrases expr)]
  | name => [("ID", .token 37)]
  | string => [("STRING", .token 34)]
  | number => [("NUMBER", .token 33)]
  | bool => [("BOOL", .token 35)]
  | funcCall => [("ID", .token 37), ("expr", .phrases expr)]
  | statement | expr | bare | numbered _ => []

def hasOperator : NodeKind → Bool
  | negation | mulDiv | addSub | compare => true
  | _ => false

end NodeKind

namespace ParseTree

/-- The part that a query asks for, or all parts of a list. -/
def ask (t : ParseTree) : PartQuery → List ParseTree
  | .token type => (t.tokensOf type).take 1
  | .phrase kind => (t.phrasesOf kind).take 1
  | .phrases kind => t.phrasesOf kind

end ParseTree

end Throbac
