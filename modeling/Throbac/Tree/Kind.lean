/-!
# Kinds of phrases

Each phrase of a program has a kind: the rule it was read by, or for statements and expressions the
alternative of the rule. A statement or expression is of the general kind until its alternative is
known. Phrases read outside the grammar's own rules are bare, or of a rule known by number only.
-/
namespace Throbac

inductive NodeKind
  | script
  | funcDef
  | main
  | body
  | varDec
  | nameDef
  | varBlock
  | block
  | statement
  | assignment
  | loop
  | branch
  | printNumber
  | printString
  | printBool
  | giveBack
  | funcCallStmt
  | expr
  | parens
  | negation
  | mulDiv
  | addSub
  | concatenation
  | compare
  | funcCallExpr
  | name
  | string
  | number
  | bool
  | funcCall
  | bare
  | numbered (rule : Int)
  deriving DecidableEq, Repr, Inhabited

namespace NodeKind

/-- The number of the rule; phrases outside the grammar's own rules have none. -/
def rule : NodeKind → Int
  | script => 0
  | funcDef => 1
  | main => 2
  | body => 3
  | varDec => 4
  | nameDef => 5
  | varBlock => 6
  | block => 7
  | statement | assignment | loop | branch | printNumber | printString | printBool | giveBack
  | funcCallStmt => 8
  | expr | parens | negation | mulDiv | addSub | concatenation | compare | funcCallExpr | name
  | string | number | bool => 9
  | funcCall => 10
  | bare | numbered _ => -1

/-- The number of the rule, also where it is known by number only. -/
def ruleNumber : NodeKind → Int
  | numbered n => n
  | k => k.rule

def title : NodeKind → String
  | script => "Script"
  | funcDef => "FuncDef"
  | main => "Main"
  | body => "Body"
  | varDec => "VarDec"
  | nameDef => "NameDef"
  | varBlock => "VarBlock"
  | block => "Block"
  | statement => "Statement"
  | assignment => "Assignment"
  | loop => "While"
  | branch => "If"
  | printNumber => "PrintNumber"
  | printString => "PrintString"
  | printBool => "PrintBool"
  | giveBack => "Return"
  | funcCallStmt => "FuncCallStmt"
  | expr => "Expr"
  | parens => "Parens"
  | negation => "Negation"
  | mulDiv => "MulDiv"
  | addSub => "AddSub"
  | concatenation => "Concatenation"
  | compare => "Compare"
  | funcCallExpr => "FuncCallExpr"
  | name => "Variable"
  | string => "String"
  | number => "Number"
  | bool => "Bool"
  | funcCall => "FuncCall"
  | bare => "ParserRule"
  | numbered _ => "InterpreterRule"

/-- The name under which a phrase of the kind is printed. -/
def className (k : NodeKind) : String := k.title ++ "Context"

def all : List NodeKind := [
  script, funcDef, main, body, varDec, nameDef, varBlock, block, statement, assignment, loop, branch,
  printNumber, printString, printBool, giveBack, funcCallStmt, expr, parens, negation, mulDiv, addSub,
  concatenation, compare, funcCallExpr, name, string, number, bool, funcCall]

def ofClassName? (s : String) : Option NodeKind := all.find? (·.className == s)

/-- Kinds that listeners have no event of their own for. -/
def isGeneral : NodeKind → Bool
  | statement | expr | bare | numbered _ => true
  | _ => false

end NodeKind

end Throbac
