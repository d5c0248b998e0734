import Throbac.Inspect.Value
import Throbac.Tree.Part
import Throbac.Tree.Pattern

/-!
# Views of trees

A node or leaf shows its sort, its class or type, its text, and the positions of its first and last
token. An outline shows all of them with the phrases around them and the parts they can be asked
for.
-/
namespace Throbac

namespace ParseTree

def view (t : ParseTree) : Except Fault Value := do
  let (a, b) := t.interval
  let text ← t.text
  let (sort, title) := match t with
    | leaf s isError => (if isError then "error" else "token", inspect s.type)
    | node i _ => ("rule", inspect i.kind.className)
  return .list [inspect sort, title, inspect text, inspect [a, b]]

def viewAll (ts : List ParseTree) : Except Fault Value := Value.list <$> ts.mapM view

/-- A part by its text; a list by the texts of its items, then of the item at `1` and of the item
behind the last. -/
def viewPart (t : ParseTree) (query : PartQuery) : Except Fault Value := do
  let texts ← (t.ask query).mapM text
  match query with
  | .phrases _ => return .list (texts.map inspect ++ [inspect texts[1]?.join, .null])
  | _ => return inspect texts.head?.join

/-- A node or leaf with the phrases around it, innermost first. -/
def entry (names : Array String) : ParseTree × List NodeInfo → Except Fault Value
  | (leaf t e, above) => do
    let s ← if t.isEof then pure (some "<EOF>") else pure t.text
    return .record (Value.fields "n children s sym parent same" [
      ← (leaf t e).view, inspect (0 : Nat), inspect s, inspect t,
      inspect (above.head?.map fun i => i.kind.className), inspect true])
  | (node i cs, above) => do
    let chain : Callers := (i :: above).map fun i => ⟨i.kind.rule, i.invoking⟩
    let parts ← i.kind.parts.mapM fun (name, query) => do
      return (name, ← (node i cs).viewPart query)
    let operator := if i.kind.hasOperator then [("op", inspect (i.operator.bind Token.text))] else []
    return .record (Value.fields
      "n children rule depth invoking empty start stop s names upto exc" [
        ← (node i cs).view, inspect cs.length, inspect i.kind.rule, inspect chain.length,
        inspect i.invoking, inspect (i.invoking == -1), inspect i.start, inspect i.stop,
        inspect (Invocations.display chain.invocations), inspect (chain.display names),
        inspect (chain.displayInner names),
        inspect i.failure] ++ parts ++ operator)

def outline (names : Array String) (t : ParseTree) : Except Fault Value :=
  Value.list <$> (t.withAncestors []).mapM (entry names)

end ParseTree

/-- A chain of invocations without a tree: its interval, first part, number of parts twice, text,
depth, whether it is empty, its alternative and rule, and its printed forms. -/
def Invocations.view (names : Array String) (chain : List Int) : Value :=
  let shown := inspect (Invocations.display chain)
  .list [inspect [(-1 : Int), -2], .null, inspect 0, inspect 0, inspect "", inspect chain.length,
    inspect (chain.head? == some (-1)), inspect 0, inspect (-1 : Int), shown,
    inspect (Callers.display names (chain.map fun i => ⟨-1, i⟩)), shown, .null]

instance : Inspect Chunk := ⟨fun c => .list (match c with
  | .text s => [inspect "TextChunk", inspect s, inspect c.display]
  | .tag name label => [inspect "TagChunk", inspect name, inspect label, inspect c.display])⟩

/-- A match with what its tags stood for, the last tree under the label and how many there are under
another. -/
def TreeMatch.view (m : TreeMatch) (last counted : String) : Except Fault Value := do
  let labels ← (m.labels.mergeSort fun a b => decide (a.1 ≤ b.1)).mapM fun (k, ts) => do
    return (k, inspect (← ts.mapM ParseTree.text))
  return .list [← m.tree.view, inspect m.display, inspect m.succeeded, inspect m.succeeded,
    inspect (← m.mismatch.mapM ParseTree.view), .record labels,
    inspect (← (m.labels.last? last).mapM ParseTree.view), inspect (m.labels.all counted).length]

end Throbac
