import Throbac.Fault

/-!
# Escaped text

Line breaks and tabs are shown as two characters each wherever a text is put on one line.
-/
namespace Throbac.Text

def escapeChar : Char → List Char
  | '\n' => ['\\', 'n']
  | '\r' => ['\\', 'r']
  | '\t' => ['\\', 't']
  | c => [c]

def escape (s : String) : String :=
  String.ofList (s.toList.flatMap escapeChar)

/-- As `escape`, with blanks shown as middle dots. -/
def escapeBlanks (s : String) : String :=
  String.ofList (s.toList.flatMap fun c => if c = ' ' then ['·'] else escapeChar c)

def quote (s : String) : String := "'" ++ escape s ++ "'"

/-- A character between single quotes, escaped if it is a blank. A longer text stands for itself, and
an empty one has no character. -/
def quoteChar (s : String) : Except Fault String :=
  match s.toList with
  | [] => .error .outOfRange
  | [_] => .ok (quote s)
  | _ => .ok ("'" ++ s ++ "'")

/-- Texts between brackets, separated by commas. -/
def bracket (items : List String) : String :=
  "[" ++ ", ".intercalate items ++ "]"

/-- Numbers between braces, separated by commas. -/
def brace (items : List Int) : String :=
  "\x7b" ++ ", ".intercalate (items.map toString) ++ "\x7d"

end Throbac.Text
