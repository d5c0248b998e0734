/-!
# Faults

What can go wrong while a grammar is read, an input is scanned or a token stream is moved. A fault is
a cause; its wording stands in `Fault.message` and nowhere else. Syntax errors are not faults: they
are reported and recovered from.
-/
namespace Throbac

/-- The broad sort of a fault, by what the caller did wrong. -/
inductive FaultKind
  | general
  | illegalState
  | unsupported
  | value
  | reference
  | type
  | member
  | index
  | key
  | name
  | decoding
  | lookup
  | exhausted
  | cannotStart
  | partialPattern
  deriving DecidableEq, Repr

/-- The name under which a fault of the kind is printed. -/
def FaultKind.title : FaultKind → String
  | general => "Exception"
  | illegalState => "IllegalStateException"
  | unsupported => "UnsupportedOperationException"
  | value => "ValueError"
  | reference => "ReferenceError"
  | type => "TypeError"
  | member => "AttributeError"
  | index => "IndexError"
  | key => "KeyError"
  | name => "NameError"
  | decoding => "UnicodeDecodeError"
  | lookup => "LookupError"
  | exhausted => "Exhausted"
  | cannotStart => "CannotInvokeStartRule"
  | partialPattern => "StartRuleDoesNotConsumeFullPattern"

inductive Fault
  /-- A value of the wrong type, an absent one included, was used. -/
  | wrongType
  /-- The value has no such attribute or operation. -/
  | noMember
  | outOfRange
  | noKey
  | noName
  /-- The bound on the number of steps was reached. -/
  | exhausted
  | emptyMinimum
  | notListed
  | badCodePoint
  | noCharacterLeft
  | noTokenLeft
  | noInput
  | emptyModeStack
  | notInBuffer (index last : Int)
  | setIsReadonly
  | frozenSet
  | noLookup
  | invalidState
  | wrongVersion (found expected : Int)
  | badStateType (type : Int)
  | badEdgeType (type : Int)
  | badActionType (type : Int)
  | nullTarget
  | brokenNetwork
  | noPrecedenceEnd
  | optionsReadonly
  | notPrecedence
  | noPredicate (rule : Int)
  | noAction (rule : Int)
  | lexerPrecedence
  | noTokenNames
  | noRuleNames
  | noLexer
  | nullListener
  | badReplaceRange (first last size : Int)
  | overlappingReplace (new old : String)
  | insertInsideReplace (insert old : String)
  | twoEditsAtOneIndex
  | unknownPathWord (word : String) (index : Int) (isRule : Bool)
  | unknownPathElement (name : String)
  | unterminatedTag (pattern : String)
  | missingTagStart (pattern : String)
  | tagsOutOfOrder (pattern : String)
  | unknownTokenTag (tag pattern : String)
  | unknownRuleTag (tag pattern : String)
  | invalidTag (tag pattern : String)
  | emptyDelimiter (isStart : Bool)
  | emptyRuleTag
  | nullMatchPart (part : String)
  | cannotStart
  | patternNotConsumed
  | unknownType (name : String)
  | tooManyDigits (digits : Nat)
  | undecodable (codec : String) (first position size : Nat) (reason : String)
  | unknownCodec (name : String)
  deriving DecidableEq, Repr

namespace Fault

def kind : Fault → FaultKind
  | wrongType => .type
  | noMember => .member
  | outOfRange => .index
  | noKey => .key
  | noName => .name
  | exhausted => .exhausted
  | emptyMinimum | notListed | badCodePoint | badReplaceRange .. | overlappingReplace .. | insertInsideReplace ..
  | twoEditsAtOneIndex | unknownType _ | tooManyDigits _ => .value
  | noTokenLeft | noInput | frozenSet | notPrecedence => .illegalState
  | noLookup | lexerPrecedence | noTokenNames | noRuleNames | noLexer => .unsupported
  | nullListener => .reference
  | undecodable .. => .decoding
  | unknownCodec _ => .lookup
  | cannotStart => .cannotStart
  | patternNotConsumed => .partialPattern
  | _ => .general

/-- Two hexadecimal digits of a byte, lower case. -/
def hexByte (b : Nat) : String :=
  String.ofList [Nat.digitChar (b / 16), Nat.digitChar (b % 16)]

/-- The text of a fault; a fault of plain misuse has none. -/
def message : Fault → Option String
  | wrongType | noMember | outOfRange | noKey | noName | exhausted => none
  | emptyMinimum => some "min() arg is an empty sequence"
  | notListed => some "list.remove(x): x not in list"
  | badCodePoint => some "chr() arg not in range(0x110000)"
  | noCharacterLeft | noTokenLeft => some "cannot consume EOF"
  | noInput => some "nextToken requires a non-null input stream."
  | emptyModeStack => some "Empty Stack"
  | notInBuffer i last => some s!"{i} not in 0..{last}"
  | setIsReadonly | frozenSet => some "This set is readonly"
  | noLookup => some "This method is not implemented for readonly sets."
  | invalidState => some "Invalid state number."
  | wrongVersion found expected =>
    some s!"Could not deserialize ATN with version {found} (expected {expected})."
  | badStateType t => some s!"The specified state type {t} is not valid."
  | badEdgeType t => some s!"The specified transition type: {t} is not valid."
  | badActionType t => some s!"The specified lexer action type {t} is not valid."
  | nullTarget => some "target cannot be null."
  | brokenNetwork => some "IllegalState"
  | noPrecedenceEnd => some "Couldn't identify final state of the precedence rule prefix section."
  | optionsReadonly => some "The object is read only."
  | notPrecedence => some "Only precedence DFAs may contain a precedence start state."
  | noPredicate r => some s!"No predicate with index:{r}"
  | noAction r => some s!"No registered action for:{r}"
  | lexerPrecedence => some "Precedence predicates are not supported in lexers."
  | noTokenNames => some "The current recognizer does not provide a list of token names."
  | noRuleNames => some "The current recognizer does not provide a list of rule names."
  | noLexer => some "Parser can't discover a lexer to use"
  | nullListener => some "listener"
  | badReplaceRange i j n => some s!"replace: range invalid: {i}..{j}(size={n})"
  | overlappingReplace new old => some s!"replace op boundaries of {new} overlap with previous {old}"
  | insertInsideReplace ins old => some s!"insert op {ins} within boundaries of previous {old}"
  | twoEditsAtOneIndex => some "should be only one op per index"
  | unknownPathWord w i isRule =>
    some (s!"{w} at index {i} isn't a valid " ++ (if isRule then "rule" else "token") ++ " name")
  | unknownPathElement n => some s!"Unknown path element {n}"
  | unterminatedTag p => some s!"unterminated tag in pattern: {p}"
  | missingTagStart p => some s!"missing start tag in pattern: {p}"
  | tagsOutOfOrder p => some s!"tag delimiters out of order in pattern: {p}"
  | unknownTokenTag t p => some s!"Unknown token {t} in pattern: {p}"
  | unknownRuleTag t p => some s!"Unknown rule {t} in pattern: {p}"
  | invalidTag t p => some s!"invalid tag: {t} in pattern: {p}"
  | emptyDelimiter isStart => some ((if isStart then "start" else "stop") ++ " cannot be null or empty")
  | emptyRuleTag => some "ruleName cannot be null or empty."
  | nullMatchPart part => some (part ++ " cannot be null")
  | cannotStart | patternNotConsumed => none
  | unknownType n => some s!"Unknown type: {n}"
  | tooManyDigits n =>
    some (s!"Exceeds the limit (4300 digits) for integer string conversion: value has {n} digits; "
      ++ "use sys.set_int_max_str_digits() to increase the limit")
  | undecodable codec b i size reason =>
    let place := if size = 1 then "byte 0x" ++ hexByte b ++ s!" in position {i}: "
      else s!"bytes in position {i}-{i + size - 1}: "
    some ("'" ++ codec ++ "' codec can't decode " ++ place ++ reason)
  | unknownCodec n => some ("unknown encoding: " ++ n)

end Fault

end Throbac
