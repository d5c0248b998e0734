import Throbac.Parsing.Parser

/-!
# Plain views

The library's values seen as plain data: numbers, texts, lists and records. A tool that logs or
compares them needs to know nothing else. A view is for looking at; nothing reads one back.
-/
namespace Throbac

inductive Value
  | null
  | flag (b : Bool)
  | number (n : Int)
  | text (s : String)
  | list (items : List Value)
  | record (fields : List (String × Value))
  deriving Inhabited, Repr

namespace Value

/-- A record from the names of its fields, separated by blanks, and their values. -/
def fields (names : String) (values : List Value) : List (String × Value) :=
  (names.splitOn " ").zip values

/-- The fields of a record; anything else has none. -/
def parts : Value → List (String × Value)
  | record fs => fs
  | _ => []

end Value

class Inspect (α : Type) where
  inspect : α → Value

export Inspect (inspect)

namespace Inspect

instance : Inspect Value := ⟨id⟩
instance : Inspect Unit := ⟨fun _ => .null⟩
instance : Inspect Int := ⟨.number⟩
instance : Inspect Nat := ⟨fun n => .number n⟩
instance : Inspect String := ⟨.text⟩
instance : Inspect Bool := ⟨.flag⟩
instance {α : Type} [Inspect α] : Inspect (List α) := ⟨fun xs => .list (xs.map inspect)⟩
instance {α : Type} [Inspect α] : Inspect (Array α) := ⟨fun xs => .list (xs.toList.map inspect)⟩
instance {α : Type} [Inspect α] : Inspect (Option α) := ⟨fun x => (x.map inspect).getD .null⟩

instance {α ε : Type} [Inspect α] [Inspect ε] : Inspect (Except ε α) := ⟨fun
  | .ok x => inspect x
  | .error x => inspect x⟩

/-- A failure by its name and, if it has one, its message. -/
def failure (name : String) (message : Option String) : Value :=
  .record (("error", inspect name) :: (message.map fun m => ("message", inspect m)).toList)

instance : Inspect Fault := ⟨fun f => failure f.kind.title f.message⟩
instance : Inspect ErrorCause := ⟨fun c => inspect c.name⟩
instance : Inspect SymbolSet :=
  ⟨fun s => inspect (s.intervals.map (·.map fun i => [i.lo, i.hi]))⟩
instance : Inspect Token := ⟨fun t => inspect t.display⟩
instance : Inspect ConfigSet := ⟨fun s => inspect s.display⟩
instance : Inspect Event := ⟨fun x => inspect x.display⟩

instance : Inspect Interruption := ⟨fun
  | .cancelled x => .record (Value.fields "error cause token state"
      [inspect (Interruption.cancelled x).title, inspect x.cause, inspect x.offending, inspect x.state])
  | i => failure i.title i.message⟩

instance : Inspect Report := ⟨fun
  | .syntaxError l c m t x => .list [inspect l, inspect c, inspect m, inspect t, inspect x]
  | .ambiguity d a b x alts s =>
    .list [inspect "ambiguity", inspect d, inspect a, inspect b, inspect x, inspect alts, inspect s]
  | .fullContext d a b alts s =>
    .list [inspect "full", inspect d, inspect a, inspect b, inspect alts, inspect s]
  | .contextSensitivity d a b p s =>
    .list [inspect "context", inspect d, inspect a, inspect b, inspect p, inspect s]⟩

instance : Inspect Probe := ⟨fun p => .list [
  inspect p.occasion.name, inspect p.state, inspect p.callers, inspect p.expected,
  inspect p.withinRule, inspect p.isExpected, inspect p.precedence, inspect p.inExpr]⟩

end Inspect

end Throbac
