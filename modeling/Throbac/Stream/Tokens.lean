import Throbac.Stream.Source

/-!
# Token streams

A token stream keeps the tokens of a source as they are asked for and moves over them. A stream on a
channel moves over the tokens of that channel only; the others stay in the buffer. A stream that was
never read stands before its first token, at `-1`.
-/
namespace Throbac

structure TokenStream where
  source : TokenSource
  tokens : Array Token := #[]
  index : Int := -1
  fetchedEof : Bool := false
  /-- The channel to move on; without one every token counts. -/
  channel : Option Int := some 0
  deriving Inhabited

/-- Work of a token stream; its state survives a fault. -/
abbrev StreamM := EStateM Fault TokenStream

namespace TokenStream

def size (s : TokenStream) : Nat := s.tokens.size

/-- The token at a position; negative ones count from the end. -/
def item (i : Int) : StreamM Token := do
  MonadExcept.ofExcept (Sequence.arrayAt (← get).tokens i)

def pull : StreamM Token := fun s =>
  match TokenSource.next s.source with
  | .error e source => .error e { s with source }
  | .ok t source =>
    let t := { t with index := s.tokens.size }
    .ok t { s with
      source := source.number s.tokens.size, tokens := s.tokens.push t
      fetchedEof := s.fetchedEof || t.isEof }

/-- Takes up to `n` tokens and gives how many there were before the end of the input. -/
def pullMany : Nat → StreamM Nat
  | 0 => return 0
  | n + 1 => do
    let t ← pull
    if t.isEof then return 1
    return (← pullMany n) + 1

def fetch (n : Int) : StreamM Int := do
  if (← get).fetchedEof then return 0
  if n ≤ 0 then return n
  return (← pullMany n.toNat)

/-- Reads far enough to hold position `i`. Gives whether there is such a position. -/
def sync (i : Int) : StreamM Bool := do
  let n := i - (← get).size + 1
  if n > 0 then return (← fetch n) ≥ n
  return true

/-- The first position from `i` on whose token is on the channel or ends the input. -/
def onChannelFrom (channel : Int) : Nat → Int → StreamM Int
  | 0, _ => throw .exhausted
  | fuel + 1, i => do
    let t ← item i
    if t.channel = channel ∨ t.isEof then return i
    let _ ← sync (i + 1)
    onChannelFrom channel fuel (i + 1)

def nextOnChannel (i channel : Int) : StreamM Int := do
  let _ ← sync i
  let s ← get
  if i ≥ s.size then return (s.size : Int) - 1
  onChannelFrom channel ((-i).toNat + s.size + s.source.remaining + 2) i

/-- The last position up to `i` whose token is on the channel, or a negative one. -/
def previousOnChannel (i channel : Int) : StreamM Int := do
  if i < 0 then return i
  let rec go : Nat → StreamM Int
    | 0 => do return if (← item 0).channel = channel then 0 else -1
    | n + 1 => do if (← item (n + 1 : Nat)).channel = channel then return (n + 1 : Nat) else go n
  go i.toNat

def settle (i : Int) : StreamM Int := do
  match (← get).channel with
  | some c => nextOnChannel i c
  | none => return i

/-- Moves to the first token if nothing was read yet. -/
def start : StreamM Unit := do
  if (← get).index = -1 then
    let _ ← sync 0
    let i ← settle 0
    modify ({ · with index := i })

def seek (i : Int) : StreamM Unit := do
  start
  let i ← settle i
  modify ({ · with index := i })

def reset : StreamM Unit := seek 0

def tokenAt (i : Int) : StreamM Token := do
  start
  item i

def lookBack (k : Int) : StreamM (Option Token) := do
  let s ← get
  match s.channel with
  | none => if s.index - k < 0 then return none else some <$> item (s.index - k)
  | some c =>
    if k = 0 ∨ s.index - k < 0 then return none
    let rec go (i : Int) : Nat → StreamM Int
      | 0 => return i
      | n + 1 => do go (← previousOnChannel (i - 1) c) n
    let i ← go s.index k.toNat
    if i < 0 then return none else some <$> item i

/-- The `k`-th token from the present one, which is the first; at the end of the input the last
token stands for all further ones. -/
def lookAhead (k : Int) : StreamM (Option Token) := do
  start
  if k = 0 then return none
  if k < 0 then lookBack (-k)
  else
    let s ← get
    match s.channel with
    | none =>
      let i := s.index + k - 1
      let _ ← sync i
      let n := (← get).size
      some <$> item (if i ≥ n then n - 1 else i)
    | some c =>
      let rec go (i : Int) : Nat → StreamM Int
        | 0 => return i
        | n + 1 => do
          if ← sync (i + 1) then go (← nextOnChannel (i + 1) c) n else go i n
      let i ← go s.index (k - 1).toNat
      some <$> item i

/-- The type of the `k`-th token from the present one. -/
def symbol (k : Int) : StreamM Int := do
  match ← lookAhead k with
  | some t => return t.type
  | none => throw .noMember

def current : StreamM Token := do
  match ← lookAhead 1 with
  | some t => return t
  | none => throw .noMember

def consume : StreamM Unit := do
  let s ← get
  let inside := s.index ≥ 0 ∧ (if s.fetchedEof then s.index < (s.size : Int) - 1 else s.index < s.size)
  if !inside then
    if (← symbol 1) = Symbol.eof then throw .noTokenLeft
  let i := (← get).index + 1
  if ← sync i then
    let i ← settle i
    modify ({ · with index := i })

def fill : StreamM Unit := do
  start
  let s ← get
  if !s.fetchedEof then
    let _ ← pullMany (s.source.remaining + 1)

/-- The tokens from `first` up to but without `last` or the end of the input, of the given types. -/
def between (first last : Int) (types : Option (List Int)) : StreamM (Option (List Token)) := do
  if first < 0 ∨ last < 0 then return none
  start
  let s ← get
  let last := min last (s.size - 1)
  let span := (s.tokens.toList.drop first.toNat).take (last - first).toNat
  let span := span.takeWhile fun t => !t.isEof
  return some (match types with
    | none => span
    | some ts => span.filter fun t => ts.contains t.type)

/-- The tokens of a span that are on the channel, or off the default one if the channel is `-1`;
nothing if there are none. -/
def filterSpan (first last channel : Int) : StreamM (Option (List Token)) := do
  let span ← (List.range (last - first + 1).toNat).mapM fun (k : Nat) => item (first + k)
  let found := span.filter fun t => if channel = -1 then t.channel ≠ 0 else t.channel = channel
  return if found.isEmpty then none else some found

def checkIndex (i : Int) : StreamM Unit := do
  start
  let n := (← get).size
  if i < 0 ∨ i ≥ n then throw (.notInBuffer i (n - 1))

/-- The hidden tokens between the token and the next one on the default channel. -/
def hiddenToRight (i channel : Int) : StreamM (Option (List Token)) := do
  checkIndex i
  let next ← nextOnChannel (i + 1) 0
  let last := ((← get).size : Int) - 1
  filterSpan (i + 1) (if next = -1 then last else next) channel

/-- The hidden tokens between the token and the one before it on the default channel. -/
def hiddenToLeft (i channel : Int) : StreamM (Option (List Token)) := do
  checkIndex i
  let previous ← previousOnChannel (i - 1) 0
  if previous = i - 1 then return none
  filterSpan (previous + 1) (i - 1) channel

/-- The texts of the tokens of a span, up to the end of the input. -/
def textOfSpan (first last : Int) : StreamM String := do
  if first < 0 ∨ last < 0 ∨ last < first then return ""
  let rec go (i : Int) (acc : String) : Nat → StreamM String
    | 0 => return acc
    | n + 1 => do
      let t ← item i
      if t.isEof then return acc
      go (i + 1) (acc ++ (← MonadExcept.ofExcept t.textOrFault)) n
  go first "" (last - first + 1).toNat

/-- The text between two positions, by default of the whole input. -/
def text (first last : Option Int) : StreamM String := do
  fill
  let n := (← get).size
  textOfSpan (first.getD 0) (match last with
    | some k => if k ≥ n then n - 1 else k
    | none => n - 1)

def textBetween (first last : Token) : StreamM String := do
  fill
  textOfSpan first.index last.index

/-- How many tokens are on the channel of the stream. -/
def countOnChannel : StreamM Nat := do
  fill
  let s ← get
  match s.channel with
  | none => throw .noMember
  | some c =>
    let upTo := s.tokens.toList.takeWhile fun t => !t.isEof
    let ending := s.tokens.toList.drop upTo.length |>.take 1
    return (upTo ++ ending).countP (·.channel = c)

def setSource (source : TokenSource) : StreamM Unit :=
  modify ({ · with source, tokens := #[], index := -1, fetchedEof := false })

end TokenStream

end Throbac
