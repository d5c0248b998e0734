import Throbac.Text.Lines

/-!
# Path names

Names of files as texts with slashes. The normal form of a path has no empty steps, no steps that
stay, and no step back after a step that it undoes.
-/
namespace Throbac.Paths

/-- The steps of a path without those that are empty or stay. -/
def steps (path : String) : List String :=
  ((Text.split '/' path.toList).map String.ofList).filter fun s => s ≠ "" ∧ s ≠ "."

/-- Takes one more step; `rooted` paths have nothing above their start. -/
def step (rooted : Bool) (done : List String) (s : String) : List String :=
  if s ≠ ".." then s :: done
  else match done with
    | [] => if rooted then [] else [s]
    | last :: rest => if last = ".." then s :: done else rest

/-- The slashes a path starts with: two are kept, and more than two are as good as one. -/
def root (path : String) : String :=
  match path.toList with
  | '/' :: '/' :: '/' :: _ => "/"
  | '/' :: '/' :: _ => "//"
  | '/' :: _ => "/"
  | _ => ""

def normalize (path : String) : String :=
  let start := root path
  let rest := "/".intercalate ((steps path).foldl (step (start ≠ "")) []).reverse
  if start ++ rest = "" then "." else start ++ rest

/-- A path as seen from a folder. A step back is left as it stands. -/
def within (folder path : String) : String :=
  let full := if root path = "" then folder ++ "/" ++ path else path
  root full ++ "/".intercalate (steps full)

end Throbac.Paths
