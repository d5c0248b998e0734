import Throbac.Stack.Context

/-!
# Merging sets of return stacks

The union of two sets of stacks, kept as a graph with as much sharing as the top frames allow. When
the bottom is a wildcard the empty stack stands for every stack and swallows the other set; otherwise
it is one stack among others. Results are remembered in a cache, if one is given.
-/
namespace Throbac

abbrev MergeCache := List ((StackContext × StackContext) × StackContext)

/-- Merging may use a cache, which survives a fault. -/
abbrev MergeM := EStateM Fault (Option MergeCache)

namespace StackContext

/-- The known union of two sets, in either order. -/
def remembered (a b : StackContext) : MergeM (Option StackContext) := do
  match ← get with
  | none => return none
  | some cache =>
    match cache.find? (fun e => e.1 = (a, b)) with
    | some e => return some e.2
    | none => return (cache.find? (fun e => e.1 = (b, a))).map (·.2)

def remember (a b merged : StackContext) : MergeM StackContext := do
  modify (Option.map (((a, b), merged) :: ·))
  return merged

/-- The union of two one-frame sets of which one is the empty stack. -/
def mergeBottom (wildcard : Bool) : StackContext → StackContext → Option StackContext
  | empty, empty => some empty
  | empty, single q s => some (if wildcard then empty else array [q, null] [s, bottom])
  | single p r, empty => some (if wildcard then empty else array [p, null] [r, bottom])
  | _, _ => none

/-- Two different frames side by side, the lower return state first. -/
def pairUp (p : StackContext) (r : Int) (q : StackContext) (s : Int) : StackContext :=
  if r > s then array [q, p] [s, r] else array [p, q] [r, s]

/-- Puts one frame among others by its return state. A frame with the same return state is merged by
`join`. Gives the frames up to and with the new one, and those behind it. -/
def mergeFrame (join : StackContext → MergeM StackContext) (p : StackContext) (r : Int)
    (others : List (StackContext × Int)) :
    MergeM (List (StackContext × Int) × List (StackContext × Int)) := do
  let (low, rest) := others.span (fun f => f.2 < r)
  match rest with
  | [] => return (low ++ [(p, r)], [])
  | (q, s) :: rest =>
    if r = s then
      if (r = bottom ∧ p = null ∧ q = null) ∨ (p ≠ null ∧ p = q) then
        return (low ++ [(p, r)], rest)
      else return (low ++ [(← join q, r)], rest)
    else return (low ++ [(p, r)], (q, s) :: rest)

/-- The set with the given merged frames, `total` being their number before merging. -/
def ofMerged (a b : StackContext) (total : Nat) (frames : List (StackContext × Int)) :
    MergeM StackContext :=
  match frames with
  | [(p, r)] =>
    if 1 < total then remember a b (push p r) else finish (array [p] [r])
  | _ => finish (array (frames.map Prod.fst) (frames.map Prod.snd))
where
  finish (merged : StackContext) : MergeM StackContext :=
    if merged = a then remember a b a
    else if merged = b then remember a b b
    else remember a b merged

def spread : StackContext → StackContext
  | single p r => array [p] [r]
  | empty => array [null] [bottom]
  | c => c

/-- Whether the array has a parent for every return state. -/
def isAligned : StackContext → Bool
  | array ps rs => rs.length ≤ ps.length
  | _ => true

/-- Merges frames with those of an array, each in its place. -/
def mergeArrays (a b : StackContext)
    (go : List (StackContext × Int) → MergeM (List (StackContext × Int))) :
    MergeM StackContext := do
  let x := spread a
  let y := spread b
  match ← remembered x y with
  | some c => return c
  | none =>
    if x = null ∨ y = null then throw .noMember
    let merged ← go y.frames
    if !(x.isAligned && y.isAligned) then throw .outOfRange
    ofMerged x y (x.frames.length + y.frames.length) merged

/-- The union of no stack and a set: only no stack at all can be added to it. -/
def mergeNull (wildcard : Bool) (b : StackContext) : MergeM StackContext :=
  if b = null then pure null
  else if wildcard ∧ b = empty then pure empty
  else mergeArrays null b fun _ => pure []

mutual

def merge (wildcard : Bool) (a b : StackContext) : MergeM StackContext := do
  if a = b then return a
  match a with
  | null => mergeNull wildcard b
  | empty =>
    match b with
    | empty | single .. =>
      match ← remembered empty b with
      | some c => return c
      | none =>
        match mergeBottom wildcard empty b with
        | some c => remember empty b c
        | none => return empty
    | null | array .. =>
      if wildcard then return empty
      mergeArrays empty b fun others => do
        let (front, rest) ← mergeFrame (mergeNull wildcard) null bottom others
        return front ++ rest
  | single p r =>
    match b with
    | empty =>
      match ← remembered (single p r) empty with
      | some c => return c
      | none =>
        match mergeBottom wildcard (single p r) empty with
        | some c => remember (single p r) empty c
        | none => return empty
    | single q s =>
      match ← remembered (single p r) (single q s) with
      | some c => return c
      | none =>
        if r = s then
          let parent ← merge wildcard p q
          if parent = p then return single p r
          if parent = q then return single q s
          remember (single p r) (single q s) (push parent r)
        else remember (single p r) (single q s) (pairUp p r q s)
    | null =>
      mergeArrays (single p r) null fun _ => pure []
    | array .. =>
      mergeArrays (single p r) b fun others => do
        let (front, rest) ← mergeFrame (merge wildcard p) p r others
        return front ++ rest
  | array ps rs =>
    if wildcard ∧ b = empty then return empty
    mergeArrays (array ps rs) b (mergeFrames wildcard ps rs)

def mergeFrames (wildcard : Bool) (ps : List StackContext) (rs : List Int)
    (others : List (StackContext × Int)) : MergeM (List (StackContext × Int)) :=
  match ps, rs with
  | p :: ps, r :: rs => do
    let (front, rest) ← mergeFrame (merge wildcard p) p r others
    return front ++ (← mergeFrames wildcard ps rs rest)
  | _, _ => pure others

end

end StackContext

end Throbac
