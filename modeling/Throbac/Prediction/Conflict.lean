import Throbac.Prediction.Config

/-!
# Conflicts between alternatives

Alternatives that reach the same state with the same stacks will stay together for the rest of the
input: they conflict. A conflict ends a prediction once no state is left that belongs to one
alternative alone. The groups below are the alternatives that share a state and its stacks, in the
order in which the pairs appear.
-/
namespace Throbac

/-- How hard a prediction tries: without the callers' stack, with it, or with it and until the
conflicting alternatives are known exactly. -/
inductive PredictionMode
  | sll
  | ll
  | exhaustive
  deriving DecidableEq, Repr, Inhabited

namespace ConfigSet

/-- Adds an alternative to the group of its key. -/
def addAlt {K : Type} (alike : K → K → Bool) (k : K) (alt : Int) :
    List (K × List Int) → List (K × List Int)
  | [] => [(k, [alt])]
  | (k', alts) :: rest =>
    if alike k k' then (k', sorted (alt :: alts)) :: rest
    else (k', alts) :: addAlt alike k alt rest

/-- The groups of alternatives that share a state and its stacks. -/
def conflictGroups (s : ConfigSet) : List (List Int) :=
  (s.configs.toList.foldl (fun acc c =>
    addAlt (fun (a b : Nat × StackContext) => a.1 == b.1 && a.2.alike b.2) (c.state, c.context) c.alt
      acc) []).map Prod.snd

/-- The groups of alternatives that share a state. -/
def stateGroups (s : ConfigSet) : List (List Int) :=
  (s.configs.toList.foldl (fun acc c => addAlt (fun (a b : Nat) => a == b) c.state c.alt acc)
    []).map Prod.snd

def hasLoneState (s : ConfigSet) : Bool := s.stateGroups.any (·.length == 1)

def anyAtStop (net : Network) (s : ConfigSet) : Bool :=
  s.configs.any fun c => (net.state c.state).isRuleStop

def allAtStop (net : Network) (s : ConfigSet) : Bool :=
  s.configs.all fun c => (net.state c.state).isRuleStop

end ConfigSet

namespace Conflict

def anyConflict (groups : List (List Int)) : Bool := groups.any (1 < ·.length)

def anyLone (groups : List (List Int)) : Bool := groups.any (·.length == 1)

def allConflict (groups : List (List Int)) : Bool := !anyLone groups

def allEqual : List (List Int) → Bool
  | [] => true
  | g :: gs => gs.all (· == g)

/-- The only alternative of all groups together, 0 if there are several. -/
def uniqueAlt (groups : List (List Int)) : Except Fault Int :=
  if groups.isEmpty then .error .wrongType
  else match ConfigSet.sorted groups.flatten with
    | [alt] => .ok alt
    | _ => .ok 0

/-- The alternative that is the least of every group, 0 if they differ. -/
def singleViable (groups : List (List Int)) : Except Fault Int :=
  match ConfigSet.sorted (groups.filterMap List.head?) with
  | [] => .error .emptyMinimum
  | [alt] => .ok alt
  | _ => .ok 0

/-- Whether a prediction without the callers' stack may stop in a conflict. -/
def endsSll (net : Network) (mode : PredictionMode) (s : ConfigSet) : Except Fault Bool := do
  if s.allAtStop net then return true
  let s ← if mode = .sll ∧ s.hasGuard then
      ConfigSet.ofConfigs true (s.configs.toList.map fun c => { c with guard := .always })
    else pure s
  return anyConflict s.conflictGroups && !s.hasLoneState

end Conflict

end Throbac
