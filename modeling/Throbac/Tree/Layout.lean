import Throbac.Fault

/-!
# Trees on several lines

A printed tree laid out with each list but the first on a line of its own, three blanks deeper than
the list around it.
-/
namespace Throbac.Layout

/-- The rest of a printed tree at a depth. An opening parenthesis must have something behind it; one
before a blank is left where it is. -/
def go (depth : Nat) : List Char → Except Fault (List Char)
  | [] => .ok []
  | '(' :: [] => .error .outOfRange
  | '(' :: ' ' :: rest => do return '(' :: ' ' :: (← go depth rest)
  | '(' :: c :: rest => do
    return '\n' :: List.replicate (3 * (depth + 1)) ' ' ++ '(' :: (← go (depth + 1) (c :: rest))
  | ')' :: rest => do return ')' :: (← go (depth - 1) rest)
  | c :: rest => do return c :: (← go depth rest)

/-- Lays out a printed tree, which must not be empty. -/
def layOut (s : String) : Except Fault String :=
  match s.toList with
  | [] => .error .outOfRange
  | c :: rest => do return String.ofList (c :: (← go 0 rest))

end Throbac.Layout
