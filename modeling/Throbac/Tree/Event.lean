import Throbac.Tree.Basic

/-!
# Events

What a listener hears while a tree is built or walked: each phrase is entered before its parts and
left after them. Phrases of a general kind have no event of their own besides the one that every
phrase has.
-/
namespace Throbac

inductive Event
  | enterEvery (kind : NodeKind)
  | enter (kind : NodeKind) (text : String)
  | exit (kind : NodeKind) (text : String)
  | exitEvery (kind : NodeKind)
  | terminal (text : Option String)
  | error (text : Option String)
  deriving DecidableEq, Repr, Inhabited

def Event.display : Event → String
  | enterEvery k => "enterEvery " ++ k.className
  | enter k text => "enter" ++ k.title ++ " " ++ text
  | exit k text => "exit" ++ k.title ++ " " ++ text
  | exitEvery k => "exitEvery " ++ k.className
  | terminal text => "terminal " ++ text.getD "None"
  | error text => "error " ++ text.getD "None"

namespace ParseTree

mutual

def events : ParseTree → Except Fault (List Event)
  | leaf t isError => .ok [if isError then .error t.text else .terminal t.text]
  | node i cs => do
    let text ← textAll cs
    let own := !i.kind.isGeneral
    let inner ← eventsAll cs
    return .enterEvery i.kind :: (if own then [.enter i.kind text] else []) ++ inner
      ++ (if own then [.exit i.kind text] else []) ++ [.exitEvery i.kind]

def eventsAll : List ParseTree → Except Fault (List Event)
  | [] => .ok []
  | c :: cs => do return (← c.events) ++ (← eventsAll cs)

end

mutual

/-- A visit that keeps what it has seen and adds up numbers: a token counts as how much was seen up
to it, a skipped token as `-1`, and each phrase adds one. The visit goes to no further part once
`limit` entries were seen. -/
def visit (limit : Option Nat) : ParseTree → StateM (Array (Option String)) Int
  | leaf t isError => do
    modify (·.push (if isError then some ("error " ++ t.text.getD "None") else t.text))
    let seen := (← get).size
    return if isError then -1 else seen
  | node i cs => do
    modify (·.push (some i.kind.className))
    return (← visitAll limit cs 0) + 1

def visitAll (limit : Option Nat) : List ParseTree → Int → StateM (Array (Option String)) Int
  | [], sum => return sum
  | c :: cs, sum => do
    let seen := (← get).size
    if limit.any (· ≤ seen) then return sum
    let n ← c.visit limit
    visitAll limit cs (n + sum)

end

mutual

/-- The nodes and leaves, each before its parts, with the phrases around it, innermost first. -/
def withAncestors (above : List NodeInfo) : ParseTree → List (ParseTree × List NodeInfo)
  | leaf t e => [(leaf t e, above)]
  | node i cs => (node i cs, above) :: withAncestorsAll (i :: above) cs

def withAncestorsAll (above : List NodeInfo) : List ParseTree → List (ParseTree × List NodeInfo)
  | [] => []
  | c :: cs => c.withAncestors above ++ withAncestorsAll above cs

end

end ParseTree

end Throbac
