import Throbac.Stream.Chars
import Throbac.Text.Escape

/-!
# Tokens

A token has a symbol as its type and marks a span of a text. Its own text, when given, takes
precedence over the span. A token outside any text prints as the end of the input.
-/
namespace Throbac

/-- A mark that lets a token of a tree pattern stand for any token of its type. -/
structure TokenTag where
  name : String
  label : Option String := none
  deriving DecidableEq, Repr, Inhabited

namespace TokenTag

def text (t : TokenTag) : String :=
  match t.label with
  | none => "<" ++ t.name ++ ">"
  | some l => "<" ++ l ++ ":" ++ t.name ++ ">"

end TokenTag

structure Token where
  type : Int
  channel : Int := 0
  start : Int := -1
  stop : Int := -1
  /-- The position in the token stream, `-1` outside any. -/
  index : Int := -1
  line : Option Int := none
  column : Int := -1
  given : Option String := none
  source : Option Chars := none
  tag : Option TokenTag := none
  deriving Inhabited, Repr

namespace Token

def isEof (t : Token) : Bool := t.type == Symbol.eof

def text (t : Token) : Option String :=
  match t.given, t.source with
  | some s, _ => some s
  | none, none => none
  | none, some cs =>
    if t.start < cs.size ∧ t.stop < cs.size then some (cs.text t.start t.stop) else some "<EOF>"

def textOrFault (t : Token) : Except Fault String :=
  match t.text with
  | some s => .ok s
  | none => .error .wrongType

def thin (type : Int) (text : Option String) : Token := { type, given := text }

/-- The token of a pattern that stands for any token of the type. -/
def ofTag (tag : TokenTag) (type : Int) : Token := { type, given := some tag.text, tag := some tag }

def showLine (t : Token) : String :=
  match t.line with
  | some n => toString n
  | none => "None"

/-- The printed form: index, span, text, type, channel and place, or the name and type of a tag. -/
def display (t : Token) : String :=
  if let some tag := t.tag then s!"{tag.name}:{t.type}" else
  let text := match t.text with
    | some s => Text.escape s
    | none => "<no text>"
  let channel := if t.channel > 0 then s!",channel={t.channel}" else ""
  s!"[@{t.index},{t.start}:{t.stop}='" ++ text ++ s!"',<{t.type}>" ++ channel
    ++ "," ++ t.showLine ++ s!":{t.column}]"

def errorDisplay (t : Token) : String :=
  Text.quote (match t.text with
    | some s => s
    | none => if t.isEof then "<EOF>" else s!"<{t.type}>")

end Token

/-- Makes tokens; `copyText` gives each its text at once. -/
structure TokenFactory where
  copyText : Bool := false
  deriving DecidableEq, Repr, Inhabited

namespace TokenFactory

def create (f : TokenFactory) (source : Option Chars) (type : Int) (text : Option String)
    (channel start stop : Int) (line : Option Int) (column : Int) : Token :=
  let given := match text, f.copyText, source with
    | some s, _, _ => some s
    | none, true, some cs => some (cs.text start stop)
    | none, _, _ => none
  { type, channel, start, stop, line, column, given, source }

end TokenFactory

end Throbac
