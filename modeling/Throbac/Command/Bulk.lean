import Throbac.Program.Translate
import Throbac.Text.Decode
import Throbac.Command.Console

/-!
# Translating a folder

Every source file of a folder becomes a C file of the same stem in another folder, from which old C
files are removed first. A source that cannot be translated leaves no file; the reason is told and
the next one is taken.
-/
namespace Throbac.Bulk

def sourceFolder : String := "throbac_source"
def targetFolder : String := "generated_c"

def hasEnding (ending name : String) : Bool := ending.toList.isSuffixOf name.toList

def isSource (name : String) : Bool := hasEnding ".throbac" name

def isC (name : String) : Bool := hasEnding ".c" name

/-- The name up to its last point, with the ending of C files. -/
def targetName (name : String) : String :=
  String.ofList (Text.join ['.'] (Text.split '.' name.toList).dropLast) ++ ".c"

/-- The C text of a file of seven-bit characters, read with what an earlier parser has learned, and
the last parser there is. -/
def translateBytes (old : Option Parser) (bytes : List Nat) :
    Except Rejection String × Option Parser :=
  match Codec.ascii.decode .strict bytes with
  | .error f => (.error (.interrupted (.fault f)), old)
  | .ok src => (translateAfter old src "script").map id some

/-- The name of an interruption with its message, if it has one. -/
def showCause (cause : Interruption) : String :=
  cause.title ++ (cause.message.map (": " ++ ·)).getD ""

/-- What is said about a source that was not translated. -/
def complaint (path : String) : Rejection → String
  | .syntaxErrors log tree =>
    let root := (tree.kind?.map NodeKind.className).getD ""
    "\nSyntax errors in " ++ path ++ "\n\n(" ++ log.display ++ ", <" ++ root ++ ">)"
  | .noText => "\nError processing " ++ path ++ "\n\n" ++ showCause (.fault .noKey) ++ "\n"
  | .interrupted cause => "\nError processing " ++ path ++ "\n\n" ++ showCause cause ++ "\n"

/-- Adds a file or puts it in the place of the one with its name. -/
def put (name content : String) : List (String × String) → List (String × String)
  | [] => [(name, content)]
  | (n, c) :: rest => if n = name then (name, content) :: rest else (n, c) :: put name content rest

/-- The files of the target folder after all sources have been taken in the order of their names. What
the parser learns from one source is known to it at the next. -/
def run (sources : List (String × List Nat)) (old : List (String × String)) :
    ConsoleM (List (String × String)) := do
  let sources := (sources.filter (isSource ·.1)).mergeSort fun a b => decide (a.1 ≤ b.1)
  let (files, _) ← sources.foldlM (fun (files, (learned : Option Parser)) (name, bytes) => do
    let (result, learned) := translateBytes learned bytes
    match result with
    | .ok c => return (put (targetName name) c files, learned)
    | .error why =>
      ConsoleM.complain (complaint (sourceFolder ++ "/" ++ name) why)
      return (files, learned)) (old.filter (!isC ·.1), none)
  return files

end Throbac.Bulk
