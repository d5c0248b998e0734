import Throbac.Stream.Tokens

/-!
# Edits of a token stream

An edit program is a list of insertions and replacements at token positions. The tokens stay as they
are; a program is carried out when its text is asked for. Before that, edits at one place are joined
and edits that another one covers are dropped, and the program keeps this reduced form.
-/
namespace Throbac

inductive EditKind
  | before
  | after
  | replace (last : Int)
  deriving DecidableEq, Repr, Inhabited

structure Edit where
  kind : EditKind
  index : Int
  text : Option String
  deriving DecidableEq, Repr, Inhabited

namespace Edit

def isInsert (e : Edit) : Bool := e.kind matches .before | .after

def last (e : Edit) : Int :=
  match e.kind with
  | .replace last => last
  | _ => e.index

def isDeletion (e : Edit) : Bool := e.text.getD "" == ""

end Edit

/-- The edits in the order in which they were given; reduction leaves a gap for a dropped one. -/
abbrev EditProgram := Array (Option Edit)

structure TokenEdits where
  stream : TokenStream
  programs : List (String × EditProgram) := [("default", #[])]
  lastIndexes : List (String × Int) := []

/-- Work on token edits; the state survives a fault. -/
abbrev EditM := EStateM Fault TokenEdits

namespace TokenEdits

def program (name : String) (s : TokenEdits) : EditProgram := (s.programs.lookup name).getD #[]

def setProgram (name : String) (p : EditProgram) (s : TokenEdits) : TokenEdits :=
  { s with programs := (name, p) :: s.programs.filter (·.1 ≠ name) }

def ofStream {α : Type} (m : StreamM α) : EditM α := fun s =>
  match m s.stream with
  | .ok x stream => .ok x { s with stream }
  | .error e stream => .error e { s with stream }

def push (name : String) (e : Edit) : EditM Unit :=
  modify fun s => s.setProgram name ((s.program name).push (some e))

def insertBefore (name : String) (index : Int) (text : Option String) : EditM Unit :=
  push name ⟨.before, index, text⟩

def insertAfter (name : String) (index : Int) (text : Option String) : EditM Unit :=
  push name ⟨.after, index + 1, text⟩

def replace (name : String) (first last : Int) (text : Option String) : EditM Unit := do
  let n : Int := (← get).stream.size
  if first > last ∨ first < 0 ∨ last < 0 ∨ last ≥ n then throw (.badReplaceRange first last n)
  push name ⟨.replace last, first, text⟩

def delete (name : String) (first last : Int) : EditM Unit := replace name first last (some "")

def rollback (name : String) (count : Int) : EditM Unit :=
  modify fun s =>
    let p := s.program name
    if p.isEmpty then s else s.setProgram name (Sequence.arrayCut p 0 count)

/-- The printed form of an edit. A deletion has none. -/
def display (e : Edit) : EditM String := do
  match e.kind with
  | .replace last =>
    if e.isDeletion then throw .wrongType
    let a ← ofStream (TokenStream.tokenAt e.index)
    let b ← ofStream (TokenStream.tokenAt last)
    return "<ReplaceOp@" ++ a.display ++ ".." ++ b.display ++ ":\"" ++ e.text.getD "None" ++ "\">"
  | kind =>
    let a ← ofStream (TokenStream.tokenAt e.index)
    let name := if kind = .after then "InsertAfterOp" else "InsertBeforeOp"
    return "<" ++ name ++ "@" ++ a.display ++ ":\"" ++ e.text.getD "None" ++ "\">"

/-- The edits before a position, each with its own. -/
def earlier (p : EditProgram) (i : Nat) : List (Nat × Edit) :=
  (p.toList.take i).zipIdx.filterMap fun (e, k) => e.map ((k, ·))

def drop (name : String) (k : Nat) : EditM Unit :=
  modify fun s => s.setProgram name ((s.program name).setIfInBounds k none)

def put (name : String) (k : Nat) (e : Edit) : EditM Unit :=
  modify fun s => s.setProgram name ((s.program name).setIfInBounds k (some e))

/-- Lets a replacement take up the insertions at its first token and drop those further inside. -/
def absorbInserts (name : String) (i : Nat) : List (Nat × Edit) → Edit → EditM Edit
  | [], r => return r
  | (k, ins) :: rest, r => do
    if ins.index = r.index then
      drop name k
      let r := { r with text := some (ins.text.getD "None" ++ r.text.getD "None") }
      put name i r
      absorbInserts name i rest r
    else
      if ins.index > r.index ∧ ins.index ≤ r.last then drop name k
      absorbInserts name i rest r

/-- Drops the replacements that a later one covers. Two that overlap otherwise are a fault, or are
joined if neither has a text. -/
def absorbReplaces (name : String) (i : Nat) : List (Nat × Edit) → Edit → EditM Unit
  | [], _ => return
  | (k, p) :: rest, r => do
    if p.index ≥ r.index ∧ p.last ≤ r.last then
      drop name k
      absorbReplaces name i rest r
    else if p.last < r.index ∨ p.index > r.last then absorbReplaces name i rest r
    else if p.text.isNone ∧ r.text.isNone then
      drop name k
      put name i { r with index := min p.index r.index, kind := .replace (min p.last r.last) }
      throw .wrongType
    else
      let new ← display r
      let old ← display p
      throw (.overlappingReplace new old)

def reduceReplace (name : String) (i : Nat) : EditM Unit := do
  match ((← get).program name)[i]? with
  | some (some r) =>
    if !r.isInsert then
      let r ← absorbInserts name i ((earlier ((← get).program name) i).filter (·.2.isInsert)) r
      absorbReplaces name i ((earlier ((← get).program name) i).filter (!·.2.isInsert)) r
  | _ => return

/-- Joins an insertion with the earlier ones at its place. The position dropped for the `k`-th
earlier insertion is `k`. -/
def joinInserts (name : String) (i : Nat) : List (Edit × Nat) → Edit → EditM Edit
  | [], ins => return ins
  | (p, k) :: rest, ins => do
    if p.index ≠ ins.index then joinInserts name i rest ins
    else
      match p.text, ins.text with
      | some old, some new =>
        let text := if p.kind = .before then new ++ old else old ++ new
        let ins := { ins with text := some text }
        put name i ins
        drop name k
        joinInserts name i rest ins
      | _, _ => throw .wrongType

/-- Gives an insertion to the replacement that begins at its place. -/
def joinReplaces (name : String) (i : Nat) (ins : Edit) : List (Nat × Edit) → EditM Unit
  | [] => return
  | (k, r) :: rest => do
    if ins.index = r.index then
      match ins.text, r.text with
      | some a, some b => put name k { r with text := some (a ++ b) }
      | _, _ => throw .wrongType
      drop name i
      joinReplaces name i ins rest
    else if ins.index ≥ r.index ∧ ins.index ≤ r.last then
      let new ← display ins
      let old ← display r
      throw (.insertInsideReplace new old)
    else joinReplaces name i ins rest

def reduceInsert (name : String) (i : Nat) : EditM Unit := do
  match ((← get).program name)[i]? with
  | some (some ins) =>
    if ins.isInsert then
      let inserts := (earlier ((← get).program name) i).filter (·.2.isInsert)
      let ins ← joinInserts name i (inserts.map (·.2)).zipIdx ins
      joinReplaces name i ins ((earlier ((← get).program name) i).filter (!·.2.isInsert))
  | _ => return

/-- The one edit at each place, in the order of the program. -/
def onePerIndex : List Edit → Except Fault (List (Int × Edit))
  | edits =>
    edits.foldlM (fun table e =>
      if (table.lookup e.index).isSome then .error .twoEditsAtOneIndex
      else .ok (table ++ [(e.index, e)])) []

/-- Brings a program into its reduced form and gives its edits by place. -/
def reduce (name : String) : EditM (List (Int × Edit)) := do
  let n := ((← get).program name).size
  (List.range n).forM (reduceReplace name)
  (List.range n).forM (reduceInsert name)
  MonadExcept.ofExcept (onePerIndex (((← get).program name).toList.filterMap id))

def written (text : Option String) : EditM String :=
  match text with
  | some s => return s
  | none => throw .wrongType

/-- The text of one token; the end of the input has none. -/
def tokenText (i : Int) : EditM String := do
  let t ← ofStream (TokenStream.tokenAt i)
  if t.isEof then return "" else written t.text

/-- Writes the tokens from `i` up to `stop` with the edits carried out. Gives the text and the edits
left over. -/
def render (stop : Int) : Nat → Int → String → List (Int × Edit) →
    EditM (String × List (Int × Edit))
  | 0, _, acc, edits => return (acc, edits)
  | fuel + 1, i, acc, edits => do
    if i > stop ∨ i ≥ (← get).stream.size then return (acc, edits)
    match edits.lookup i with
    | none => render stop fuel (i + 1) (acc ++ (← tokenText i)) edits
    | some e =>
      let edits := edits.filter (·.1 ≠ i)
      match e.kind with
      | .replace last => render stop fuel (last + 1) (acc ++ e.text.getD "") edits
      | _ =>
        let acc := acc ++ (← written e.text)
        render stop fuel (i + 1) (acc ++ (← tokenText e.index)) edits

/-- The text from one token to another after the edits of a program. Edits behind the last token are
written if the text reaches up to it. -/
def text (name : String) (first last : Int) : EditM String := do
  let n : Int := (← get).stream.size
  let last := min last (n - 1)
  let first := max first 0
  if ((← get).program name).isEmpty then
    ofStream (TokenStream.text (some first) (some last))
  else
    let edits ← reduce name
    let (acc, left) ← render last (n.toNat + 1) first "" edits
    if last = n - 1 then
      left.foldlM (fun acc (_, e) => do
        if e.index ≥ n - 1 then return acc ++ (← written e.text) else return acc) acc
    else return acc

def defaultText : EditM String := do
  text "default" 0 ((← get).stream.size - 1)

def lastIndex (name : String) (s : TokenEdits) : Int := (s.lastIndexes.lookup name).getD (-1)

def setLastIndex (name : String) (i : Int) (s : TokenEdits) : TokenEdits :=
  { s with lastIndexes := (name, i) :: s.lastIndexes }

end TokenEdits

end Throbac
