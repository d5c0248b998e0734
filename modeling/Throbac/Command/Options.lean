/-!
# Command-line options

Options are flags: a letter behind a hyphen or a word behind two. Letters may be written together,
and a word may be cut short as long as one flag is meant. Flags and other words may be mixed; two
hyphens alone end the flags. Reading stops at the first flag that asks for help.
-/
namespace Throbac

structure Flag where
  letter : Char
  word : String
  purpose : String
  deriving DecidableEq, Repr, Inhabited

inductive OptionError
  | unknown (given : String)
  | ambiguous (given : String) (candidates : List String)
  | takesNoValue (word : String)
  deriving DecidableEq, Repr

def OptionError.message : OptionError → String
  | unknown s => "no such option: " ++ s
  | ambiguous s cs => "ambiguous option: " ++ s ++ " (" ++ ", ".intercalate cs ++ "?)"
  | takesNoValue s => s ++ " option does not take a value"

/-- The flags that were given and the words that are none, in their order. -/
structure Arguments where
  flags : List Char := []
  words : List String := []
  deriving DecidableEq, Repr, Inhabited

namespace Flag

def help : Flag where
  letter := 'h'
  word := "help"
  purpose := "show this help message and exit"

def long (f : Flag) : String := "--" ++ f.word

def spelling (f : Flag) : String := "-" ++ String.singleton f.letter ++ ", " ++ f.long

/-- The usage of a program with a line for each flag. -/
def manual (usage : String) (flags : List Flag) : String :=
  let flags := help :: flags
  let width := (flags.map (·.spelling.length)).foldl max 0
  let pad (s : String) := s ++ String.ofList (List.replicate (width - s.length) ' ')
  usage ++ "\nOptions:\n"
    ++ String.join (flags.map fun f => "  " ++ pad f.spelling ++ "  " ++ f.purpose ++ "\n")

/-- The flag that a word with its two hyphens means. -/
def ofWord (flags : List Flag) (given : String) : Except OptionError Flag :=
  match flags.find? (·.long == given) with
  | some f => .ok f
  | none =>
    match flags.filter fun f => given.toList.isPrefixOf f.long.toList with
    | [f] => .ok f
    | [] => .error (.unknown given)
    | fs => .error (.ambiguous given ((fs.map long).mergeSort fun a b => decide (a ≤ b)))

/-- The flags that letters behind a hyphen mean, up to the one that asks for help. -/
def ofLetters (flags : List Flag) : List Char → Except OptionError (List Char)
  | [] => .ok []
  | c :: cs =>
    if c = help.letter then .ok [c]
    else if flags.any (·.letter == c) then do return c :: (← ofLetters flags cs)
    else .error (.unknown ("-" ++ String.singleton c))

/-- The letters of the flags of one argument, which starts with a hyphen. -/
def ofArgument (flags : List Flag) (arg : List Char) : Except OptionError (List Char) :=
  match arg with
  | '-' :: '-' :: _ => do
    let f ← ofWord (help :: flags) (String.ofList (arg.takeWhile (· != '=')))
    if arg.contains '=' then throw (.takesNoValue f.long)
    return [f.letter]
  | _ => ofLetters flags (arg.drop 1)

def read (flags : List Flag) : List String → Except OptionError (Option Arguments)
  | [] => .ok (some {})
  | arg :: args => do
    if arg = "--" then return some { words := args }
    let cs := arg.toList
    if cs.head? = some '-' ∧ cs.length > 1 then
      let letters ← ofArgument flags cs
      if letters.contains help.letter then return none
      return (← read flags args).map fun a => { a with flags := letters ++ a.flags }
    else return (← read flags args).map fun a => { a with words := arg :: a.words }

end Flag

end Throbac
