/-!
# Lines and blanks

Texts as lists of characters: splitting at a separator, joining again, and trimming. Blanks are the
white space characters of Unicode together with the four ASCII separators.
-/
namespace Throbac.Text

/-- The pieces between separators; there is always one more than there are separators. -/
def split (sep : Char) : List Char → List (List Char)
  | [] => [[]]
  | c :: cs =>
    if c = sep then [] :: split sep cs
    else match split sep cs with
      | [] => [[c]]
      | piece :: rest => (c :: piece) :: rest

/-- The pieces with a separator between any two. -/
def join (sep : List Char) : List (List Char) → List Char
  | [] => []
  | [piece] => piece
  | piece :: rest => piece ++ sep ++ join sep rest

def lines (s : String) : List String := (split '\n' s.toList).map String.ofList

def unlines (ls : List String) : String := "\n".intercalate ls

def isBlank (c : Char) : Bool :=
  let n := c.toNat
  (9 ≤ n && n ≤ 13) || (28 ≤ n && n ≤ 32) || n == 0x85 || n == 0xA0 || n == 0x1680
    || (0x2000 ≤ n && n ≤ 0x200A) || n == 0x2028 || n == 0x2029 || n == 0x202F || n == 0x205F
    || n == 0x3000

def dropEnd (p : Char → Bool) (cs : List Char) : List Char := (cs.reverse.dropWhile p).reverse

def trimEnd (s : String) : String := String.ofList (dropEnd isBlank s.toList)

/-- Drops a character from both ends as often as it stands there. -/
def stripChar (c : Char) (s : String) : String :=
  String.ofList (dropEnd (· == c) (s.toList.dropWhile (· == c)))

end Throbac.Text
