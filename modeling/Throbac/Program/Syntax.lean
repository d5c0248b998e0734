import Throbac.Program.Numeral

/-!
# Programs

The syntax of the language: expressions, statements, blocks with their variables, functions and
scripts. Parentheses are kept, since the generated text shows them.
-/
namespace Throbac

inductive NegationWord
  | ni
  | negans
  deriving DecidableEq, Repr, Inhabited

inductive MulOp
  | congero
  | partio
  deriving DecidableEq, Repr, Inhabited

inductive AddOp
  | addo
  | subtraho
  deriving DecidableEq, Repr, Inhabited

inductive CompareOp
  | idem
  | niIdem
  | infra
  | infraIdem
  | supra
  | supraIdem
  deriving DecidableEq, Repr, Inhabited

inductive Expr
  | number (n : Numeral)
  | string (content : String)
  | bool (b : Bool)
  | name (id : String)
  | parens (e : Expr)
  | negation (word : NegationWord) (e : Expr)
  | mulDiv (op : MulOp) (left right : Expr)
  | addSub (op : AddOp) (left right : Expr)
  | concatenation (left right : Expr)
  | compare (op : CompareOp) (left right : Expr)
  | call (function : String) (arguments : List Expr)
  deriving Repr, Inhabited

structure Invocation where
  function : String
  arguments : List Expr
  deriving Repr, Inhabited

inductive ValueType
  | numerus
  | locutio
  | veritas
  deriving DecidableEq, Repr, Inhabited

namespace ValueType

def word : ValueType → String
  | numerus => "NUMERUS"
  | locutio => "LOCUTIO"
  | veritas => "VERITAS"

def ofWord (s : String) : Except Fault ValueType :=
  match [numerus, locutio, veritas].find? (·.word == s) with
  | some t => .ok t
  | none => .error (.unknownType s)

end ValueType

structure NameDef where
  name : String
  type : ValueType
  deriving DecidableEq, Repr, Inhabited

inductive Statement
  | assignment (name : String) (value : Expr)
  | loop (condition : Expr) (block : List Statement)
  | branch (condition : Expr) (block : List Statement) (otherwise : Option (List Statement))
  | printNumber (e : Expr)
  | printString (e : Expr)
  | printBool (e : Expr)
  | giveBack (value : Option Expr)
  | call (invocation : Invocation)
  deriving Repr, Inhabited

structure ProgramBody where
  declared : List NameDef
  block : List Statement
  deriving Repr, Inhabited

structure FuncDef where
  name : String
  parameters : List NameDef
  result : Option ValueType
  body : ProgramBody
  deriving Repr, Inhabited

structure Script where
  functions : List FuncDef
  main : ProgramBody
  deriving Repr, Inhabited

/-- Anything that one of the grammar's rules reads. -/
inductive Phrase
  | script (s : Script)
  | funcDef (f : FuncDef)
  | main (b : ProgramBody)
  | body (b : ProgramBody)
  | varDec (d : NameDef)
  | nameDef (d : NameDef)
  | varBlock (ds : List NameDef)
  | block (ss : List Statement)
  | statement (s : Statement)
  | expr (e : Expr)
  | funcCall (i : Invocation)
  deriving Repr, Inhabited

end Throbac
