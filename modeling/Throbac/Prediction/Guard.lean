import Throbac.Text.Sequence

/-!
# Guards

A condition under which an alternative may be taken: a predicate of the grammar, a bound on the
precedence, or several of these together. An absent guard means that no alternative asks anything.
-/
namespace Throbac

inductive Guard
  | always
  | predicate (rule index : Int) (needsContext : Bool)
  | precedence (level : Int)
  | all (operands : List Guard)
  | any (operands : List Guard)
  deriving Inhabited, Repr

namespace Guard

mutual

def decEq (a b : Guard) : Decidable (a = b) :=
  match a, b with
  | always, always => .isTrue rfl
  | predicate r p c, predicate r' p' c' =>
    if h : r = r' ∧ p = p' ∧ c = c' then .isTrue (by simp [h])
    else .isFalse (by intro e; cases e; exact h ⟨rfl, rfl, rfl⟩)
  | precedence n, precedence m =>
    if h : n = m then .isTrue (by rw [h]) else .isFalse (by intro e; cases e; exact h rfl)
  | all xs, all ys =>
    match decEqList xs ys with
    | .isTrue h => .isTrue (by rw [h])
    | .isFalse h => .isFalse (by intro e; cases e; exact h rfl)
  | any xs, any ys =>
    match decEqList xs ys with
    | .isTrue h => .isTrue (by rw [h])
    | .isFalse h => .isFalse (by intro e; cases e; exact h rfl)
  | always, predicate .. | always, precedence _ | always, all _ | always, any _
  | predicate .., always | predicate .., precedence _ | predicate .., all _ | predicate .., any _
  | precedence _, always | precedence _, predicate .. | precedence _, all _ | precedence _, any _
  | all _, always | all _, predicate .. | all _, precedence _ | all _, any _
  | any _, always | any _, predicate .. | any _, precedence _ | any _, all _ =>
    .isFalse (by intro e; cases e)

def decEqList (xs ys : List Guard) : Decidable (xs = ys) :=
  match xs, ys with
  | [], [] => .isTrue rfl
  | x :: xs, y :: ys =>
    match decEq x y with
    | .isFalse h => .isFalse (by intro e; cases e; exact h rfl)
    | .isTrue h =>
      match decEqList xs ys with
      | .isTrue hs => .isTrue (by rw [h, hs])
      | .isFalse hs => .isFalse (by intro e; cases e; exact hs rfl)
  | [], _ :: _ | _ :: _, [] => .isFalse (by intro e; cases e)

end

instance : DecidableEq Guard := decEq

/-- The operands a conjunction takes over from a guard. -/
def conjuncts : Guard → List Guard
  | all gs => gs
  | g => [g]

/-- The operands a disjunction takes over from a guard. -/
def disjuncts : Guard → List Guard
  | any gs => gs
  | g => [g]

def predicateLe : Guard → Guard → Bool
  | predicate r p c, predicate r' p' c' =>
    decide (r < r') || (r == r' && (decide (p < p') || (p == p' && (!c || c'))))
  | _, _ => true

/-- Operands without repetition: the predicates in order, then the others as they came. -/
def operands (gs : List Guard) : List Guard :=
  let once := gs.foldl (fun seen g => if g ∈ seen then seen else seen ++ [g]) []
  let isPredicate : Guard → Bool := fun
    | predicate .. => true
    | _ => false
  Sequence.sortBy predicateLe (once.filter isPredicate) ++ once.filter (!isPredicate ·)

def single (join : List Guard → Guard) : List Guard → Guard
  | [g] => g
  | gs => join gs

/-- The guard that asks for both; `always` and an absent guard ask for nothing. -/
def conj : Option Guard → Option Guard → Option Guard
  | none, b => b
  | some always, b => b
  | a, none => a
  | a, some always => a
  | some a, some b =>
    some (single all (operands (a.conjuncts ++ b.conjuncts)))

/-- The guard that asks for one of two; an absent guard leaves the other, `always` makes it void. -/
def disj : Option Guard → Option Guard → Option Guard
  | none, b => b
  | a, none => a
  | some always, some _ => some always
  | some _, some always => some always
  | some a, some b =>
    some (single any (operands (a.disjuncts ++ b.disjuncts)))

/-- How guards are decided: predicates by rule, number and whether a context is at hand, and
precedences by level. -/
structure Oracle where
  predicate : Int → Int → Bool → Except Fault Bool
  precedence : Int → Except Fault Bool
  /-- Whether there is a context to hand to a predicate that needs one. -/
  hasContext : Bool := true

instance : Inhabited Oracle := ⟨⟨fun _ _ _ => .ok true, fun _ => .ok true, true⟩⟩

mutual

/-- Whether the guard holds; `always` decides nothing. -/
def eval (o : Oracle) : Guard → Except Fault (Option Bool)
  | always => .ok none
  | predicate r p needsContext => some <$> o.predicate r p (needsContext && o.hasContext)
  | precedence n => some <$> o.precedence n
  | all gs => some <$> evalAll o gs
  | any gs => some <$> evalAny o gs

def evalAll (o : Oracle) : List Guard → Except Fault Bool
  | [] => .ok true
  | g :: gs => do
    if (← g.eval o).getD false then evalAll o gs else return false

def evalAny (o : Oracle) : List Guard → Except Fault Bool
  | [] => .ok false
  | g :: gs => do
    if (← g.eval o).getD false then return true else evalAny o gs

end

mutual

/-- What is left of a guard once the precedences in it are decided: absent if it fails. -/
def reduce (o : Oracle) : Guard → Except Fault (Option Guard)
  | always => .ok (some always)
  | predicate r p c => .ok (some (predicate r p c))
  | precedence n => do return if ← o.precedence n then some always else none
  | all gs => do
    match ← reduceAll o gs with
    | none => return none
    | some left =>
      if left = gs.map some then return some (all gs)
      let kept := (left.filterMap id).filter (· ≠ always)
      return if kept.isEmpty then some always
        else kept.foldl (fun acc g => conj acc (some g)) none
  | any gs => do
    match ← reduceAny o gs with
    | none => return some always
    | some left =>
      if left = gs.map some then return some (any gs)
      return (left.filterMap id).foldl (fun acc g => disj acc (some g)) none

/-- Reduces operands up to the first that fails, which fails them all. -/
def reduceAll (o : Oracle) : List Guard → Except Fault (Option (List (Option Guard)))
  | [] => .ok (some [])
  | g :: gs => do
    match ← g.reduce o with
    | none => return none
    | some g => return (← reduceAll o gs).map (some g :: ·)

/-- Reduces operands up to the first that holds, which settles them all. -/
def reduceAny (o : Oracle) : List Guard → Except Fault (Option (List (Option Guard)))
  | [] => .ok (some [])
  | g :: gs => do
    match ← g.reduce o with
    | some always => return none
    | g => return (← reduceAny o gs).map (g :: ·)

end

/-- Whether one precedence is below another; nothing else is ordered. -/
def lessThan : Option Guard → Option Guard → Except Fault Bool
  | some (precedence n), some (precedence m) => .ok (n < m)
  | some (precedence _), _ => .error .noMember
  | _, _ => .error .wrongType

/-- Joins the last group of the left with the first of the right. -/
def joinGroups : List (List String) → List (List String) → List (List String)
  | [], ys => ys
  | [x], y :: ys => (x ++ y) :: ys
  | x :: xs, ys => x :: joinGroups xs ys

mutual

/-- The words of a guard in groups: a group is joined by "and", the groups by "or". -/
def groups : Guard → List (List String)
  | always => [["<EmptySemanticContext>"]]
  | predicate r p _ => [["\x7b" ++ s!"{r}:{p}" ++ "\x7d?"]]
  | precedence _ => [["<PrecedencePredicate>"]]
  | all gs => groupsAll gs
  | any gs => groupsAny gs

def groupsAll : List Guard → List (List String)
  | [] => []
  | [g] => g.groups
  | g :: gs => joinGroups g.groups (groupsAll gs)

def groupsAny : List Guard → List (List String)
  | [] => []
  | g :: gs => g.groups ++ groupsAny gs

end

/-- The printed form, operands in the order of their text. -/
def display (g : Guard) : String :=
  let sort := fun l : List String => l.mergeSort fun a b => decide (a ≤ b)
  "||".intercalate (sort (g.groups.map fun ws => "&&".intercalate (sort ws)))

/-- The printed form of a guard that may be absent. -/
def show? : Option Guard → String
  | none => "None"
  | some g => g.display

end Guard

end Throbac
