import Throbac.Parsing.Recovery

/-!
# Rules

A rule says how a phrase is read: its parts in order, a choice among alternatives by prediction, or
for expressions a first operand followed by operators of sufficient precedence. Before each part the
parser moves to the state of the grammar's network that stands for it, and an error within the rule
is handled at its end.
-/
namespace Throbac

inductive Part
  | token (state type : Int)
  /-- One of several tokens, kept as the operator of the phrase. -/
  | operator (state : Int) (types : List Int)
  | phrase (state : Int) (rule : Nat) (precedence : Int := 0)
  /-- Parts that are there if the next token starts them. -/
  | optional (state : Int) (first : List Int) (parts : List Part)
  /-- Parts repeated as long as the next token starts them; `back` is the state after a round. -/
  | many (state back : Int) (first : List Int) (parts : List Part)
  /-- Parts repeated as long as the decision predicts them. -/
  | manyPredicted (state back decision : Int) (parts : List Part)
  deriving Repr, Inhabited

/-- An alternative of a rule; its phrases have a kind of their own. -/
structure Alternative where
  kind : NodeKind
  parts : List Part
  deriving Repr, Inhabited

structure Operand extends Alternative where
  first : List Int
  deriving Repr, Inhabited

/-- An operator behind an operand, with the state of its bound on the precedence. -/
structure Suffix extends Alternative where
  state : Int
  precedence : Int
  deriving Repr, Inhabited

/-- A rule that may start with itself: a first operand and any number of suffixes. -/
structure Recursion where
  state : Int
  operands : List Operand
  /-- The state and the decision of the loop, and the state after a round. -/
  loop : Int
  loopDecision : Int
  back : Int
  /-- The state and the decision of the choice among the suffixes. -/
  choice : Int
  choiceDecision : Int
  suffixes : List Suffix
  deriving Repr, Inhabited

inductive Body
  | sequence (parts : List Part)
  | choice (state decision : Int) (alternatives : List Alternative)
  | recursion (r : Recursion)
  deriving Repr, Inhabited

structure Rule where
  kind : NodeKind
  enter : Int
  body : Body
  deriving Repr, Inhabited

namespace Rule

open Throbac.Parser

def predict (decision : Int) : ParseM Int := do
  let callers := (← get).callers
  onCore (Prediction.predict decision (some callers) callers)

/-- Handles an error of the rule whose phrase stands at the height. -/
def rescue (height : Nat) : Interruption → ParseM Unit
  | .recognition e => do
    modify fun p => { p with stack := p.stack.mapIdx fun i f =>
      if i + height = p.stack.length then { f with info := { f.info with failure := some e.cause } }
      else f }
    report e
    recover e
  | e => throw e

/-- The tree of the phrase that stood at the height, after the innermost phrase was left. -/
def resultOf (height : Nat) (left : ParseTree) : ParseM (Option ParseTree) := do
  let p ← get
  return if height ≤ p.stack.length then p.treeAt height else some left

/-- Checks the bound on the precedence before an operator. -/
def requirePrecedence (n : Int) : ParseM Unit := do
  let p ← get
  if n < p.core.precedence then
    let offending ← current
    throw (.recognition {
      cause := .failedPredicate
      message := some s!"failed predicate: \x7bself.precpred(self._ctx, {n})\x7d?"
      offending := some offending, state := p.core.state, callers := p.callers })

def setOperator (t : Option Token) : ParseM Unit :=
  modifyTop fun f => { f with info := { f.info with operator := t } }

def readOperator (types : List Int) : ParseM Unit := do
  setOperator (← onStream (TokenStream.lookAhead 1))
  if types.contains (← symbol 1) then
    settle
    let _ ← consume
  else setOperator (some (← mend))

/-- The failure of a choice that the present token cannot start. -/
def noOperand : ParseM RecognitionError := do
  let here ← current
  let p ← get
  return { cause := .noViable, offending := some here, start := some here, state := p.core.state
           callers := p.callers }

mutual

/-- Reads a phrase of a rule, with `choose` to decide on the alternatives. The tree is absent only
where the rule's phrase is gone. -/
def invoke (rules : Array Rule) (choose : Int → ParseM Int) :
    Nat → Nat → Int → ParseM (Option ParseTree)
  | 0, _, _ => throw (.fault .exhausted)
  | fuel + 1, n, precedence => do
    match rules[n]? with
    | none => throw (.fault .noMember)
    | some r =>
      match r.body with
      | .recursion body =>
        let height := (← get).stack.length
        let invoking := (← get).core.state
        enterRecursion r.kind invoking r.enter precedence
        let work := do
          try recursion rules choose fuel r invoking height body
          catch e => rescue (height + 1) e
        let (_, tree) ← tryFinally' work fun _ => exitRecursion height
        return tree
      | .sequence parts => enclosed r do sequence rules choose fuel parts
      | .choice state decision alternatives => enclosed r do
        setState state
        sync
        let alt ← choose decision
        match alternatives[alt.toNat - 1]? with
        | some a =>
          if 0 < alt then
            modifyTop (·.become a.kind)
            sequence rules choose fuel a.parts
        | none => return
where
  enclosed (r : Rule) (body : ParseM Unit) : ParseM (Option ParseTree) := do
    enterRule r.kind (← get).core.state r.enter
    let height := (← get).stack.length
    let work := do
      try body
      catch e => rescue height e
    let (_, tree) ← tryFinally' work fun _ => exitRule
    resultOf height tree

/-- Reads an operand and the operators behind it. -/
def recursion (rules : Array Rule) (choose : Int → ParseM Int) :
    Nat → Rule → Int → Nat → Recursion → ParseM Unit
  | 0, _, _, _, _ => throw (.fault .exhausted)
  | fuel + 1, r, invoking, height, body => do
    setState body.state
    sync
    let here ← symbol 1
    match body.operands.find? (·.first.contains here) with
    | none => throw (.recognition (← noOperand))
    | some a =>
      modifyTop (·.become a.kind)
      sequence rules choose fuel a.parts
    markStop
    setState body.loop
    sync
    suffixes rules choose fuel r invoking height body (← choose body.loopDecision)

/-- Reads operators as long as the loop's prediction says so. -/
def suffixes (rules : Array Rule) (choose : Int → ParseM Int) :
    Nat → Rule → Int → Nat → Recursion → Int → ParseM Unit
  | 0, _, _, _, _, _ => throw (.fault .exhausted)
  | fuel + 1, r, invoking, height, body, alt => do
    if alt = 2 ∨ alt = 0 then return
    if alt = 1 then
      if (← get).listeners.isSome then announceExit
      setState body.choice
      sync
      let choice ← choose body.choiceDecision
      match body.suffixes[choice.toNat - 1]? with
      | some s =>
        if 0 < choice then
          wrap s.kind r.enter invoking (height + 1)
          setState s.state
          requirePrecedence s.precedence
          sequence rules choose fuel s.parts
      | none => pure ()
    setState body.back
    sync
    suffixes rules choose fuel r invoking height body (← choose body.loopDecision)

def sequence (rules : Array Rule) (choose : Int → ParseM Int) : Nat → List Part → ParseM Unit
  | 0, _ => throw (.fault .exhausted)
  | _ + 1, [] => return
  | fuel + 1, p :: ps => do
    part rules choose fuel p
    sequence rules choose fuel ps

def part (rules : Array Rule) (choose : Int → ParseM Int) : Nat → Part → ParseM Unit
  | 0, _ => throw (.fault .exhausted)
  | fuel + 1, p => do
    match p with
    | .token state type =>
      setState state
      let _ ← matchType type
    | .operator state types =>
      setState state
      readOperator types
    | .phrase state rule precedence =>
      setState state
      let _ ← invoke rules choose fuel rule precedence
    | .optional state first parts =>
      setState state
      sync
      if first.contains (← symbol 1) then sequence rules choose fuel parts
    | .many state back first parts =>
      setState state
      sync
      rounds rules choose fuel back first parts
    | .manyPredicted state back decision parts =>
      setState state
      sync
      predictedRounds rules choose fuel back decision parts (← choose decision)

/-- Reads rounds of a loop while the next token starts one. -/
def rounds (rules : Array Rule) (choose : Int → ParseM Int) :
    Nat → Int → List Int → List Part → ParseM Unit
  | 0, _, _, _ => throw (.fault .exhausted)
  | fuel + 1, back, first, parts => do
    if first.contains (← symbol 1) then
      sequence rules choose fuel parts
      setState back
      sync
      rounds rules choose fuel back first parts

/-- Reads rounds of a loop while they are predicted. -/
def predictedRounds (rules : Array Rule) (choose : Int → ParseM Int) :
    Nat → Int → Int → List Part → Int → ParseM Unit
  | 0, _, _, _, _ => throw (.fault .exhausted)
  | fuel + 1, back, decision, parts, alt => do
    if alt = 2 ∨ alt = 0 then return
    if alt = 1 then sequence rules choose fuel parts
    setState back
    sync
    predictedRounds rules choose fuel back decision parts (← choose decision)

end

/-- Reads a phrase of a rule from the present token on, with `choose` to decide on the
alternatives. -/
def parseWith (rules : Array Rule) (choose : Int → ParseM Int) (n : Nat) (precedence : Int) :
    ParseM ParseTree := do
  match ← invoke rules choose (Nat.pow 2 14 * (← get).core.stepBound) n precedence with
  | some t => return t
  | none => throw (.fault .noMember)

/-- Reads a phrase of a rule from the present token on. -/
def parse (rules : Array Rule) (n : Nat) (precedence : Int := 0) : ParseM ParseTree :=
  parseWith rules predict n precedence

end Rule

end Throbac
