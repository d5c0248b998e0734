import Throbac.Stack.Context

/-!
# Sharing equal contexts

A cache holds one copy of each context it has seen, so that equal contexts of cached automaton
states are stored once.
-/
namespace Throbac

abbrev ContextCache := List StackContext

namespace ContextCache

/-- Adds a context unless it, or the empty stack, is there. -/
def add (cache : ContextCache) (c : StackContext) : ContextCache :=
  if c = .empty ∨ c ∈ cache then cache else c :: cache

end ContextCache

/-- The cache and what was met during one pass over a context. -/
structure Sharing where
  cache : ContextCache
  visited : List (StackContext × StackContext) := []
  deriving Inhabited

abbrev ShareM := EStateM Fault Sharing

namespace Sharing

/-- A context met before, in this pass or an earlier one. -/
def known (c : StackContext) : ShareM (Option StackContext) := do
  let s ← get
  match s.visited.find? (·.1 = c) with
  | some e => return some e.2
  | none =>
    if c ∈ s.cache then
      set { s with visited := (c, c) :: s.visited }
      return some c
    else return none

/-- Stores a context, under the one it stands for as well. -/
def store (c updated : StackContext) : ShareM Unit :=
  modify fun s =>
    { cache := s.cache.add updated, visited := (c, updated) :: (updated, updated) :: s.visited }

end Sharing

namespace StackContext

/-- The set with the given parents, whose number decides its form. -/
def ofShared : List StackContext → List Int → StackContext
  | [], _ => empty
  | [p], r :: _ => push p r
  | ps, rs => array ps rs

mutual

/-- The shared copy of a context, and whether it is another copy than the given one. A one-frame
array whose parent was replaced becomes a single frame. -/
def share (c : StackContext) : ShareM (StackContext × Bool) := do
  if ← MonadExcept.ofExcept c.isEmpty then return (c, false)
  match ← Sharing.known c with
  | some e => return (e, true)
  | none =>
    match c with
    | null | empty => return (c, false)
    | single p r =>
      let (p, changed) ← share p
      let updated := push p r
      Sharing.store c updated
      return (updated, changed)
    | array ps rs =>
      let (ps, changed) ← shareAll ps rs
      let updated := if changed then ofShared ps rs else array ps rs
      Sharing.store c updated
      return (updated, changed)

def shareAll : List StackContext → List Int → ShareM (List StackContext × Bool)
  | _, [] => return ([], false)
  | [], _ :: _ => throw .outOfRange
  | p :: ps, _ :: rs => do
    let (p, first) ← share p
    let (ps, others) ← shareAll ps rs
    return (p :: ps, first || others)

end

end StackContext

end Throbac
