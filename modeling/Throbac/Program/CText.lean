import Throbac.Program.Frame
import Throbac.Program.Syntax

/-!
# Generated text

The C text of a program. Operators are written as they stand, without parentheses of their own; only
a negation is put into parentheses. The body of a block is indented by four blanks, and lines have no
blanks at their ends.
-/
namespace Throbac

namespace CText

/-- The text in braces on lines of their own, indented. -/
def block (s : String) : String :=
  Text.unlines (["\x7b"] ++ (Text.lines s).map (fun l => Text.trimEnd ("    " ++ l)) ++ ["\x7d"])

def print (specifier value : String) : String :=
  "printf(\"" ++ specifier ++ "\", " ++ value ++ ");"

/-- The text of a string: a plus sign stands for a line break. -/
def quoted (content : String) : String :=
  "\"" ++ String.ofList (content.toList.flatMap fun c => if c = '+' then ['\\', 'n'] else [c]) ++ "\""

end CText

def MulOp.toC : MulOp → String
  | congero => "*"
  | partio => "/"

def AddOp.toC : AddOp → String
  | addo => "+"
  | subtraho => "-"

def CompareOp.toC : CompareOp → String
  | idem => "=="
  | niIdem => "!="
  | infra => "<"
  | infraIdem => "<="
  | supra => ">"
  | supraIdem => ">="

def ValueType.toC : ValueType → String
  | numerus => "int"
  | locutio => "char *"
  | veritas => "short int"

mutual

def Expr.toC : Expr → Except Fault String
  | number n => n.decimal
  | string content => .ok (CText.quoted content)
  | bool b => .ok (if b then "1" else "0")
  | name id => .ok id
  | parens e => do return "(" ++ (← e.toC) ++ ")"
  | negation _ e => do return "(-" ++ (← e.toC) ++ ")"
  | mulDiv op l r => do return (← l.toC) ++ " " ++ op.toC ++ " " ++ (← r.toC)
  | addSub op l r => do return (← l.toC) ++ " " ++ op.toC ++ " " ++ (← r.toC)
  | concatenation l r => do return "__throbac_cat(" ++ (← l.toC) ++ "," ++ (← r.toC) ++ ")"
  | compare op l r => do return (← l.toC) ++ " " ++ op.toC ++ " " ++ (← r.toC)
  | call f arguments => do return f ++ "(" ++ ",".intercalate (← Expr.allToC arguments) ++ ")"

def Expr.allToC : List Expr → Except Fault (List String)
  | [] => .ok []
  | e :: es => do return (← e.toC) :: (← Expr.allToC es)

end

def Invocation.toC (i : Invocation) : Except Fault String := (Expr.call i.function i.arguments).toC

mutual

def Statement.toC : Statement → Except Fault String
  | assignment x e => do return x ++ " = " ++ (← e.toC) ++ ";"
  | loop e ss => do
    let condition ← e.toC
    return "while (" ++ condition ++ ") " ++ (← Statement.blockToC ss)
  | branch e ss none => do
    let condition ← e.toC
    return "if (" ++ condition ++ ") " ++ (← Statement.blockToC ss)
  | branch e ss (some ts) => do
    let condition ← e.toC
    let first ← Statement.blockToC ss
    return "if (" ++ condition ++ ") " ++ first ++ " else " ++ (← Statement.blockToC ts)
  | printNumber e => do return CText.print "%d" (← e.toC)
  | printString e => do return CText.print "%s" (← e.toC)
  | printBool e => do return CText.print "%s" ("(" ++ (← e.toC) ++ ")?\"True\":\"False\"")
  | giveBack none => .ok "return;"
  | giveBack (some e) => do return "return " ++ (← e.toC) ++ ";"
  | call i => do return (← i.toC) ++ ";"

def Statement.allToC : List Statement → Except Fault (List String)
  | [] => .ok []
  | s :: ss => do return (← s.toC) :: (← Statement.allToC ss)

def Statement.blockToC (ss : List Statement) : Except Fault String := do
  return CText.block (Text.unlines (← Statement.allToC ss))

end

def NameDef.toC (d : NameDef) : String := d.type.toC ++ " " ++ d.name

def NameDef.declaration (d : NameDef) : String := d.toC ++ ";"

def NameDef.declarations (ds : List NameDef) : String := Text.unlines (ds.map declaration)

/-- The variables and the block, both within braces. -/
def ProgramBody.toC (b : ProgramBody) : Except Fault String := do
  return CText.block (Text.unlines [NameDef.declarations b.declared, ← Statement.blockToC b.block])

def ProgramBody.mainToC (b : ProgramBody) : Except Fault String := do
  return "void main() " ++ (← b.toC)

namespace FuncDef

/-- The type, name and parameters of a function. -/
def head (f : FuncDef) : String :=
  let result := (f.result.map ValueType.toC).getD "void"
  result ++ " " ++ f.name ++ "(" ++ ", ".intercalate (f.parameters.map NameDef.toC) ++ ")"

def declaration (f : FuncDef) : String := f.head ++ ";"

def toC (f : FuncDef) : Except Fault String := do return f.head ++ " " ++ (← f.body.toC)

end FuncDef

/-- A whole program: what it needs, the declarations, the main function and the definitions. Parts
that are empty leave no line. -/
def Script.toC (s : Script) : Except Fault String := do
  let definitions ← s.functions.mapM FuncDef.toC
  let main ← s.main.mainToC
  let parts := [CText.opening, Text.unlines (s.functions.map FuncDef.declaration),
    CText.mainComment, main, CText.functionsComment, Text.unlines definitions]
  return Text.unlines (parts.filter (· ≠ ""))

def Phrase.toC : Phrase → Except Fault String
  | script s => s.toC
  | funcDef f => f.toC
  | main b => b.mainToC
  | body b => b.toC
  | varDec d => .ok d.declaration
  | nameDef d => .ok d.toC
  | varBlock ds => .ok (NameDef.declarations ds)
  | block ss => Statement.blockToC ss
  | statement s => s.toC
  | expr e => e.toC
  | funcCall i => i.toC

end Throbac
