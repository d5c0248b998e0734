import Throbac.Program.Syntax
import Throbac.Tree.Basic

/-!
# Programs from parse trees

Reads the program off its parse tree. A tree is read only if each phrase has exactly the parts that
its rule asks for; the tree of a parse without syntax errors always has.
-/
namespace Throbac

/-! The operators by symbol. -/

namespace Word

def ni : Int := 19
def negans : Int := 20
def congero : Int := 21
def partio : Int := 22
def addo : Int := 23
def subtraho : Int := 24
def idem : Int := 26
def niIdem : Int := 27
def infra : Int := 28
def infraIdem : Int := 29
def supra : Int := 30
def supraIdem : Int := 31

end Word

def NegationWord.ofSymbol? (x : Int) : Option NegationWord :=
  if x = Word.ni then some ni else if x = Word.negans then some negans else none

def MulOp.ofSymbol? (x : Int) : Option MulOp :=
  if x = Word.congero then some congero else if x = Word.partio then some partio else none

def AddOp.ofSymbol? (x : Int) : Option AddOp :=
  if x = Word.addo then some addo else if x = Word.subtraho then some subtraho else none

def CompareOp.ofSymbol? (x : Int) : Option CompareOp :=
  if x = Word.idem then some idem
  else if x = Word.niIdem then some niIdem
  else if x = Word.infra then some infra
  else if x = Word.infraIdem then some infraIdem
  else if x = Word.supra then some supra
  else if x = Word.supraIdem then some supraIdem
  else none

mutual

def Expr.ofTree? : ParseTree → Option Expr
  | .node i [.leaf t _] => do
    let text ← t.text
    match i.kind with
    | .number => (Numeral.ofText? text).map .number
    | .string => some (.string (Text.stripChar '^' text))
    | .bool => some (.bool (text == "VERUM"))
    | .name => some (.name text)
    | _ => none
  | .node i [.leaf _ _, e, .leaf _ _] =>
    if i.kind = .parens then (Expr.ofTree? e).map .parens else none
  | .node i [.leaf t _, e] =>
    if i.kind = .negation then do
      let word ← NegationWord.ofSymbol? t.type
      return .negation word (← Expr.ofTree? e)
    else none
  | .node i [l, .leaf t _, r] => do
    let left ← Expr.ofTree? l
    let right ← Expr.ofTree? r
    match i.kind with
    | .mulDiv => return .mulDiv (← MulOp.ofSymbol? t.type) left right
    | .addSub => return .addSub (← AddOp.ofSymbol? t.type) left right
    | .concatenation => return .concatenation left right
    | .compare => return .compare (← CompareOp.ofSymbol? t.type) left right
    | _ => none
  | .node i [.node j cs] =>
    if i.kind = .funcCallExpr ∧ j.kind = .funcCall then do
      let (arguments, name) ← argumentsOf? cs
      return .call name arguments
    else none
  | _ => none

/-- The arguments of a call and its name, from the parts of the call. -/
def argumentsOf? : List ParseTree → Option (List Expr × String)
  | [.leaf _ _, .leaf t _] => t.text.map ([], ·)
  | .leaf _ _ :: e :: rest => do
    let e ← Expr.ofTree? e
    let (more, name) ← argumentsOf? rest
    return (e :: more, name)
  | _ => none

end

def Invocation.ofTree? : ParseTree → Option Invocation
  | .node i cs =>
    if i.kind = .funcCall then (argumentsOf? cs).map fun (arguments, function) => { function, arguments }
    else none
  | _ => none

mutual

def Statement.ofTree? : ParseTree → Option Statement
  | .node i [.leaf x _, e, .leaf _ _] =>
    if i.kind = .assignment then do
      return .assignment (← x.text) (← Expr.ofTree? e)
    else none
  | .node i [e, .leaf _ _, .leaf _ _, .node j ss, .leaf _ _] => do
    if j.kind ≠ .block then none
    let condition ← Expr.ofTree? e
    let block ← Statement.ofTrees? ss
    match i.kind with
    | .loop => return .loop condition block
    | .branch => return .branch condition block none
    | _ => none
  | .node i [e, .leaf _ _, .leaf _ _, .node j ss, .leaf _ _, .leaf _ _, .leaf _ _, .node k ts,
      .leaf _ _] =>
    if i.kind = .branch ∧ j.kind = .block ∧ k.kind = .block then do
      let condition ← Expr.ofTree? e
      return .branch condition (← Statement.ofTrees? ss) (some (← Statement.ofTrees? ts))
    else none
  | .node i [.leaf _ _] => if i.kind = .giveBack then some (.giveBack none) else none
  | .node i [e, .leaf _ _] => do
    let e ← Expr.ofTree? e
    match i.kind with
    | .printNumber => return .printNumber e
    | .printString => return .printString e
    | .printBool => return .printBool e
    | .giveBack => return .giveBack (some e)
    | _ => none
  | .node i [c] => if i.kind = .funcCallStmt then (Invocation.ofTree? c).map .call else none
  | _ => none

def Statement.ofTrees? : List ParseTree → Option (List Statement)
  | [] => some []
  | t :: ts => do return (← Statement.ofTree? t) :: (← Statement.ofTrees? ts)

end

def blockOf? : ParseTree → Option (List Statement)
  | .node i ss => if i.kind = .block then Statement.ofTrees? ss else none
  | _ => none

def NameDef.ofTree? : ParseTree → Option NameDef
  | .node i [.leaf x _, .leaf _ _, .leaf t _] =>
    if i.kind = .nameDef then do
      let type ← (ValueType.ofWord (← t.text)).toOption
      return { name := ← x.text, type }
    else none
  | _ => none

def NameDef.ofDeclaration? : ParseTree → Option NameDef
  | .node i [d, .leaf _ _] => if i.kind = .varDec then NameDef.ofTree? d else none
  | _ => none

def variablesOf? : ParseTree → Option (List NameDef)
  | .node i ds => if i.kind = .varBlock then ds.mapM NameDef.ofDeclaration? else none
  | _ => none

def ProgramBody.ofTree? : ParseTree → Option ProgramBody
  | .node i [vs, ss] =>
    if i.kind = .body then do return { declared := ← variablesOf? vs, block := ← blockOf? ss }
    else none
  | _ => none

def ProgramBody.ofMain? : ParseTree → Option ProgramBody
  | .node i [b] => if i.kind = .main then ProgramBody.ofTree? b else none
  | _ => none

/-- The parameters before a function's name, and what follows them. -/
def parametersOf? : List ParseTree → Option (List NameDef × List ParseTree)
  | .leaf _ _ :: .node i cs :: rest => do
    let d ← NameDef.ofTree? (.node i cs)
    let (ds, rest) ← parametersOf? rest
    return (d :: ds, rest)
  | rest => some ([], rest)

def FuncDef.ofTree? : ParseTree → Option FuncDef
  | .node i cs => do
    if i.kind ≠ .funcDef then none
    let (parameters, rest) ← parametersOf? cs
    match rest with
    | [.leaf _ _, .leaf x _, .leaf _ _, b, .leaf _ _] =>
      return { name := ← x.text, parameters, result := none, body := ← ProgramBody.ofTree? b }
    | [.leaf _ _, .leaf x _, .leaf _ _, .leaf t _, .leaf _ _, b, .leaf _ _] =>
      let type ← (ValueType.ofWord (← t.text)).toOption
      return { name := ← x.text, parameters, result := some type, body := ← ProgramBody.ofTree? b }
    | _ => none
  | _ => none

def Script.ofTree? : ParseTree → Option Script
  | .node i cs => do
    if i.kind ≠ .script then none
    match cs.reverse with
    | .leaf _ _ :: m :: fs =>
      return { functions := ← fs.reverse.mapM FuncDef.ofTree?, main := ← ProgramBody.ofMain? m }
    | _ => none
  | _ => none

def Phrase.ofTree? (t : ParseTree) : Option Phrase := do
  match ← t.kind? with
  | .script => (Script.ofTree? t).map .script
  | .funcDef => (FuncDef.ofTree? t).map .funcDef
  | .main => (ProgramBody.ofMain? t).map .main
  | .body => (ProgramBody.ofTree? t).map .body
  | .varDec => (NameDef.ofDeclaration? t).map .varDec
  | .nameDef => (NameDef.ofTree? t).map .nameDef
  | .varBlock => (variablesOf? t).map .varBlock
  | .block => (blockOf? t).map .block
  | .funcCall => (Invocation.ofTree? t).map .funcCall
  | k =>
    if k.rule = NodeKind.statement.rule then (Statement.ofTree? t).map .statement
    else if k.rule = NodeKind.expr.rule then (Expr.ofTree? t).map .expr
    else none

end Throbac
