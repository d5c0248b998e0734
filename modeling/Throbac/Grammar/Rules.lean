import Throbac.Grammar.Specs
import Throbac.Parsing.Rule

/-!
# The rules of the language

The rules in the order of their numbers, over the states of `parserNetwork`. Symbols stand by number;
`vocabulary` has their names.
-/
namespace Throbac.Grammar

def exprFirst : List Int := [1, 17, 19, 20, 32, 33, 34, 35, 37]

def statementFirst : List Int := [1, 16, 17, 19, 20, 32, 33, 34, 35, 37]

def assignment : Alternative :=
  ⟨.assignment, [.token 76 37, .phrase 77 9, .token 78 9]⟩

def loop : Alternative :=
  ⟨.loop, [.phrase 80 9, .token 81 10, .token 82 5, .phrase 83 7, .token 84 6]⟩

def branch : Alternative :=
  ⟨.branch, [.phrase 86 9, .token 87 11, .token 88 5, .phrase 89 7, .token 90 6,
    .optional 96 [12] [.token 91 12, .token 92 5, .phrase 93 7, .token 94 6]]⟩

/-- The alternatives of a statement in the order of their numbers. -/
def statements : List Alternative := [
  assignment,
  loop,
  branch,
  ⟨.printNumber, [.phrase 98 9, .token 99 13]⟩,
  ⟨.printString, [.phrase 101 9, .token 102 14]⟩,
  ⟨.printBool, [.phrase 104 9, .token 105 15]⟩,
  ⟨.giveBack, [.optional 108 exprFirst [.phrase 107 9], .token 110 16]⟩,
  ⟨.funcCallStmt, [.phrase 111 10]⟩]

def operands : List Operand := [
  ⟨⟨.parens, [.token 115 17, .phrase 116 9, .token 117 18]⟩, [17]⟩,
  ⟨⟨.negation, [.operator 119 [19, 20], .phrase 120 9 10]⟩, [19, 20]⟩,
  ⟨⟨.funcCallExpr, [.phrase 121 10]⟩, [1, 32]⟩,
  ⟨⟨.name, [.token 122 37]⟩, [37]⟩,
  ⟨⟨.string, [.token 123 34]⟩, [34]⟩,
  ⟨⟨.number, [.token 124 33]⟩, [33]⟩,
  ⟨⟨.bool, [.token 125 35]⟩, [35]⟩]

/-- The operators behind an operand, the tightest first. Each takes operands of a higher precedence
to its right, so that all of them group to the left. -/
def suffixes : List Suffix := [
  ⟨⟨.mulDiv, [.operator 129 [21, 22], .phrase 130 9 10]⟩, 128, 9⟩,
  ⟨⟨.addSub, [.operator 132 [23, 24], .phrase 133 9 9]⟩, 131, 8⟩,
  ⟨⟨.concatenation, [.token 135 25, .phrase 136 9 8]⟩, 134, 7⟩,
  ⟨⟨.compare, [.operator 138 [26, 27, 28, 29, 30, 31], .phrase 139 9 7]⟩, 137, 6⟩]

def funcDef : List Part := [
  .optional 40 [1] [.token 31 1, .phrase 32 5, .many 37 39 [2] [.token 33 2, .phrase 34 5]],
  .token 42 3, .token 43 37, .optional 46 [4] [.token 44 4, .token 45 36],
  .token 48 5, .phrase 49 3, .token 50 6]

def funcCall : List Part := [
  .optional 154 [1] [.token 145 1, .phrase 146 9, .many 151 153 [2] [.token 147 2, .phrase 148 9]],
  .token 156 32, .token 157 37]

def rules : Array Rule := #[
  ⟨.script, 0, .sequence [.manyPredicted 25 27 0 [.phrase 22 1], .phrase 28 2, .token 29 (-1)]⟩,
  ⟨.funcDef, 2, .sequence funcDef⟩,
  ⟨.main, 4, .sequence [.phrase 52 3]⟩,
  ⟨.body, 6, .sequence [.phrase 54 6, .phrase 55 7]⟩,
  ⟨.varDec, 8, .sequence [.phrase 57 5, .token 58 7]⟩,
  ⟨.nameDef, 10, .sequence [.token 60 37, .token 61 8, .token 62 36]⟩,
  ⟨.varBlock, 12, .sequence [.manyPredicted 67 69 4 [.phrase 64 4]]⟩,
  ⟨.block, 14, .sequence [.many 73 75 statementFirst [.phrase 70 8]]⟩,
  ⟨.statement, 16, .choice 112 8 statements⟩,
  ⟨.expr, 18, .recursion {
    state := 126, operands, loop := 142, loopDecision := 11, back := 144, choice := 140
    choiceDecision := 10, suffixes }⟩,
  ⟨.funcCall, 20, .sequence funcCall⟩]

/-- The operators are the only parts with a condition: a bound on the precedence. -/
def predicate (precedence : Int) (rule index : Int) : Except Fault (Option Bool) :=
  if rule = 9 then
    match index with
    | 0 => .ok (some (9 ≥ precedence))
    | 1 => .ok (some (8 ≥ precedence))
    | 2 => .ok (some (7 ≥ precedence))
    | 3 => .ok (some (6 ≥ precedence))
    | _ => .ok none
  else .error (.noPredicate rule)

/-- The parser of programs. Its network has no predicates but those on the precedence. -/
def parserSpec : ParserSpec where
  network := parserNetwork
  vocabulary := vocabulary
  ruleNames := ruleNames

def lexerOf (src : String) : Lexer := .ofSpec lexerSpec (some (.ofString src))

def parserOf (src : String) : Parser := .ofSpec parserSpec { source := .lexer (lexerOf src) }

/-- Reads a phrase of the rule with the name, with `choose` to decide on the alternatives. Only
expressions take a precedence. -/
def parseWith (choose : Int → ParseM Int) (rule : String) (precedence : Option Int := none) :
    ParseM ParseTree := do
  match ruleNames.idxOf? rule with
  | none => throw (.fault .noMember)
  | some n =>
    if precedence.isSome ∧ rule ≠ "expr" then throw (.fault .wrongType)
    Rule.parseWith rules choose n (precedence.getD 0)

def parse (rule : String) (precedence : Option Int := none) : ParseM ParseTree :=
  parseWith Rule.predict rule precedence

def showTree (t : ParseTree) : Except Fault String := t.display ruleNames

end Throbac.Grammar
