/-!
# Versions

A version is told by its first two parts. Generated tables and the machinery that runs them must
agree in both.
-/
namespace Throbac

structure Version where
  major : String
  minor : String
  deriving DecidableEq, Repr, Inhabited

namespace Version

/-- The part of a list before the first element of a class, if there is one, and what follows it. -/
def cut? (p : Char → Bool) (cs : List Char) : Option (List Char × List Char) :=
  match cs.dropWhile (!p ·) with
  | [] => none
  | _ :: rest => some (cs.takeWhile (!p ·), rest)

/-- The parts before the first and the second point. The second part may also end at a hyphen. A
text without a point is all minor, and its major part is the text less its last character. -/
def ofString (s : String) : Version :=
  let (major, rest) := (cut? (· == '.') s.toList).getD (s.toList.dropLast, s.toList)
  let minor := match cut? (· == '.') rest, cut? (· == '-') rest with
    | some (m, _), _ => m
    | none, some (m, _) => m
    | none, none => rest
  ⟨String.ofList major, String.ofList minor⟩

def current : String := "4.11.1"

/-- The complaint about tables of another version. -/
def complaint (tables : String) : Option String :=
  if ofString tables = ofString current then none
  else some ("ANTLR runtime and generated code versions disagree: " ++ current ++ "!=" ++ tables)

end Version

end Throbac
