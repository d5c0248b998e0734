import Throbac.Tree.Kind
import Throbac.Report

/-!
# Parse trees

The leaves of a parse tree are tokens, among them those that error recovery skipped or made up. A
node is a phrase with its parts in order.
-/
namespace Throbac

structure NodeInfo where
  kind : NodeKind
  /-- The state that invoked the rule, `-1` at the start. -/
  invoking : Int := -1
  start : Option Token := none
  stop : Option Token := none
  /-- The failure that ended the phrase, if one did. -/
  failure : Option ErrorCause := none
  /-- The operator of a negation, product, sum or comparison. -/
  operator : Option Token := none
  listed : Bool := false
  deriving Inhabited, Repr

inductive ParseTree
  | leaf (token : Token) (isError : Bool)
  | node (info : NodeInfo) (children : List ParseTree)
  deriving Inhabited, Repr

namespace ParseTree

def children : ParseTree → List ParseTree
  | leaf .. => []
  | node _ cs => cs

def kind? : ParseTree → Option NodeKind
  | leaf .. => none
  | node i _ => some i.kind

def token? : ParseTree → Option Token
  | leaf t _ => some t
  | node .. => none

/-- Whether the tree is a phrase of the kind. A general kind takes in its alternatives. -/
def isA (kind : NodeKind) : ParseTree → Bool
  | leaf .. => false
  | node i _ =>
    match kind with
    | .statement | .expr => i.kind.rule == kind.rule
    | .bare => true
    | k => i.kind == k

mutual

/-- The texts of the leaves one after another. A leaf may have no text, but not below a node. -/
def text : ParseTree → Except Fault (Option String)
  | leaf t _ => .ok t.text
  | node _ cs => some <$> textAll cs

def textAll : List ParseTree → Except Fault String
  | [] => .ok ""
  | c :: cs => do
    match ← c.text with
    | some s => return s ++ (← textAll cs)
    | none => throw .wrongType

end

/-- The positions of the first and last token of a phrase; `-1, -2` if either is missing. -/
def interval : ParseTree → Int × Int
  | leaf t _ => (t.index, t.index)
  | node i _ =>
    match i.start, i.stop with
    | some a, some b => (a.index, b.index)
    | _, _ => (-1, -2)

mutual

/-- The nodes and leaves, each before its parts. -/
def descendants : ParseTree → List ParseTree
  | leaf t e => [leaf t e]
  | node i cs => node i cs :: descendantsAll cs

def descendantsAll : List ParseTree → List ParseTree
  | [] => []
  | c :: cs => c.descendants ++ descendantsAll cs

end

def leaves (t : ParseTree) : List Token := t.descendants.filterMap token?

/-- The leaves of a phrase itself with the type. -/
def tokensOf (t : ParseTree) (type : Int) : List ParseTree :=
  t.children.filter fun c => (c.token?.map Token.type) == some type

def phrasesOf (t : ParseTree) (kind : NodeKind) : List ParseTree := t.children.filter (isA kind)

end ParseTree

end Throbac
