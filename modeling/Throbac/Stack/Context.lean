import Throbac.Network.Basic

/-!
# Sets of return stacks

While it looks ahead, a parser follows several call stacks at once. A `StackContext` holds such a set
as a graph read from the top: `empty` is the bottom of every stack, `single` one frame above a set,
and `array` several frames side by side. `null` is no stack at all, the mark of a search that does
not know its caller. An array lists its frames by increasing return state; `bottom`, larger than all
others, marks the frame that ends a stack.
-/
namespace Throbac

inductive StackContext
  | null
  | empty
  | single (parent : StackContext) (ret : Int)
  | array (parents : List StackContext) (rets : List Int)
  deriving Inhabited, Repr

namespace Invocations

/-- The printed form of a chain of invocations, innermost first: the invoking states, of which `-1`
is left out. -/
def display (chain : List Int) : String := "[" ++ go chain ++ "]"
where
  go : List Int → String
    | [] => ""
    | s :: rest =>
      (if s = -1 then "" else toString s)
        ++ (if rest.head?.any (· ≠ -1) then " " else "") ++ go rest

end Invocations

namespace StackContext

/-- The return state of the frame that ends a stack. -/
def bottom : Int := 0x7FFFFFFF

mutual

/-- Equality, decided at once for a value that is compared with itself. -/
def decEq (a b : StackContext) : Decidable (a = b) :=
  withPtrEqDecEq a b fun _ =>
    match a, b with
    | null, null => .isTrue rfl
    | empty, empty => .isTrue rfl
    | single p r, single q s =>
      if hr : r = s then
        match decEq p q with
        | .isTrue hp => .isTrue (by rw [hp, hr])
        | .isFalse hp => .isFalse (by intro h; cases h; exact hp rfl)
      else .isFalse (by intro h; cases h; exact hr rfl)
    | array ps rs, array qs ss =>
      if hr : rs = ss then
        match decEqList ps qs with
        | .isTrue hp => .isTrue (by rw [hp, hr])
        | .isFalse hp => .isFalse (by intro h; cases h; exact hp rfl)
      else .isFalse (by intro h; cases h; exact hr rfl)
    | null, empty | null, single .. | null, array .. | empty, null | empty, single ..
    | empty, array .. | single .., null | single .., empty | single .., array ..
    | array .., null | array .., empty | array .., single .. => .isFalse (by intro h; cases h)

def decEqList (ps qs : List StackContext) : Decidable (ps = qs) :=
  match ps, qs with
  | [], [] => .isTrue rfl
  | p :: ps, q :: qs =>
    match decEq p q with
    | .isFalse hp => .isFalse (by intro h; cases h; exact hp rfl)
    | .isTrue hp =>
      match decEqList ps qs with
      | .isTrue hps => .isTrue (by rw [hp, hps])
      | .isFalse hps => .isFalse (by intro h; cases h; exact hps rfl)
  | [], _ :: _ | _ :: _, [] => .isFalse (by intro h; cases h)

end

instance : DecidableEq StackContext := decEq

/-- One frame above a set of stacks; the bottom frame above nothing is the empty stack. -/
def push (parent : StackContext) (ret : Int) : StackContext :=
  match parent with
  | null => if ret = bottom then empty else single null ret
  | p => single p ret

def width : StackContext → Except Fault Nat
  | null => .error .wrongType
  | empty => .ok 1
  | single .. => .ok 1
  | array _ rs => .ok rs.length

/-- Whether the set is the empty stack, or an array that starts with the bottom frame. -/
def isEmpty : StackContext → Except Fault Bool
  | null => .error .noMember
  | empty => .ok true
  | single .. => .ok false
  | array _ rs => do return (← Sequence.listAt rs 0) = bottom

def retAt (c : StackContext) (i : Int) : Except Fault Int :=
  match c with
  | null => .error .noMember
  | empty => .ok bottom
  | single _ r => .ok r
  | array _ rs => Sequence.listAt rs i

def parentAt (c : StackContext) (i : Int) : Except Fault StackContext :=
  match c with
  | null => .error .noMember
  | empty => .ok null
  | single p _ => .ok p
  | array ps _ => Sequence.listAt ps i

def hasEmptyPath (c : StackContext) : Except Fault Bool := do
  let n ← c.width
  return (← c.retAt ((n : Int) - 1)) = bottom

def frames : StackContext → List (StackContext × Int)
  | null => []
  | empty => [(null, bottom)]
  | single p r => [(p, r)]
  | array ps rs => ps.zip rs

mutual

def height : StackContext → Nat
  | null | empty => 0
  | single p _ => p.height + 1
  | array ps _ => heights ps + 1

def heights : List StackContext → Nat
  | [] => 0
  | p :: ps => max p.height (heights ps)

end

mutual

/-- The printed form: return states from the top down, alternatives in brackets. -/
def display : StackContext → String
  | null => "None"
  | empty => "$"
  | single null r => if r = bottom then "$" else toString r
  | single p r => toString r ++ " " ++ p.display
  | array ps rs =>
    if rs.head? = some bottom then "[]"
    else "[" ++ ", ".intercalate (displayFrames ps rs) ++ "]"

def displayFrames : List StackContext → List Int → List String
  | [], rs => rs.map fun r => if r = bottom then "$" else toString r
  | _ :: _, [] => []
  | p :: ps, r :: rs =>
    (if r = bottom then "$"
      else if p = null then toString r ++ "null"
      else toString r ++ " " ++ p.display) :: displayFrames ps rs

end

/-- What of a context is looked at when configurations are grouped: a frame above nothing counts as
zero whatever its return state. -/
inductive Digest
  | int (n : Int)
  | pair (a b : Digest)
  deriving DecidableEq, Repr, Inhabited

mutual

def digest : StackContext → Digest
  | null => .int (-1)
  | empty => .int 0
  | single null _ => .int 0
  | single p r => .pair p.digest (.int r)
  | array ps rs => digestFrames (.int 0) ps rs

def digestFrames (h : Digest) : List StackContext → List Int → Digest
  | null :: ps, _ :: rs => digestFrames (.pair h (.int 0)) ps rs
  | p :: ps, r :: rs => digestFrames (.pair h (.pair p.digest (.int r))) ps rs
  | _, _ => h

end

/-- Whether two contexts count as one when configurations are grouped. -/
def alike (a b : StackContext) : Bool := a = b || a.digest = b.digest

/-- The stack of a chain of rule invocations, innermost first. The outermost rule has no caller. -/
def ofInvocations (net : Network) : List Int → Except Fault StackContext
  | [] => .ok empty
  | [_] => .ok empty
  | s :: rest => do
    let parent ← ofInvocations net rest
    let n ← net.stateAt s
    let follow ← net.followOf n
    return parent.push follow

end StackContext

end Throbac
