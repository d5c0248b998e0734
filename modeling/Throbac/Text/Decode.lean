import Throbac.Fault

/-!
# Text from bytes

Three encodings: seven-bit ASCII, Latin-1 and UTF-8. Bytes that the encoding does not allow are a
fault, or are dropped, or become the replacement character.
-/
namespace Throbac

inductive Codec
  | ascii
  | latin
  | utf8
  deriving DecidableEq, Repr, Inhabited

inductive Policy
  | strict
  | ignore
  | replace
  /-- Each byte in hexadecimal behind a backslash. -/
  | escape
  deriving DecidableEq, Repr, Inhabited

namespace Codec

def ofName? (s : String) : Option Codec :=
  let key := String.ofList (s.toList.filterMap fun c =>
    if c = '-' ∨ c = '_' ∨ c = ' ' then none else some c.toLower)
  if ["ascii", "usascii", "646"].contains key then some ascii
  else if ["latin1", "latin", "l1", "iso88591", "88591", "cp819"].contains key then some latin
  else if ["utf8", "u8", "utf", "cp65001"].contains key then some utf8
  else none

def name : Codec → String
  | ascii => "ascii"
  | latin => "latin-1"
  | utf8 => "utf-8"

/-- One step of decoding: a character and how many bytes it takes, or how many bytes are wrong and
why. -/
inductive Step
  | char (c : Char) (size : Nat)
  | wrong (size : Nat) (reason : String)

def invalidStart : Step := .wrong 1 "invalid start byte"
def invalidContinuation (size : Nat) : Step := .wrong size "invalid continuation byte"

def isContinuation (b : Nat) : Bool := 0x80 ≤ b && b < 0xC0

/-- The least and the largest second byte after a first byte. -/
def secondRange (b : Nat) : Nat × Nat :=
  if b = 0xE0 then (0xA0, 0xBF)
  else if b = 0xED then (0x80, 0x9F)
  else if b = 0xF0 then (0x90, 0xBF)
  else if b = 0xF4 then (0x80, 0x8F)
  else (0x80, 0xBF)

/-- How many bytes a character has that starts with the byte, `0` if none does. -/
def lengthOf (b : Nat) : Nat :=
  if b < 0x80 then 1
  else if b < 0xC2 then 0
  else if b < 0xE0 then 2
  else if b < 0xF0 then 3
  else if b < 0xF5 then 4
  else 0

/-- How many bytes behind the first can belong to its character. -/
def goodBytes (first : Nat) : List Nat → Nat
  | [] => 0
  | b :: rest =>
    let (lo, hi) := secondRange first
    if lo ≤ b ∧ b ≤ hi then 1 + (rest.takeWhile isContinuation).length else 0

def utf8Step (b : Nat) (rest : List Nat) : Step :=
  let size := lengthOf b
  if size = 0 then invalidStart
  else
    let tail := rest.take (size - 1)
    let good := goodBytes b tail
    if good = size - 1 then
      let high := if size = 1 then b else if size = 2 then b - 0xC0
        else if size = 3 then b - 0xE0 else b - 0xF0
      .char (Char.ofNat (tail.foldl (fun n x => 64 * n + (x - 0x80)) high)) size
    else if good = tail.length then .wrong (1 + good) "unexpected end of data"
    else invalidContinuation (1 + good)

def step (codec : Codec) (b : Nat) (rest : List Nat) : Step :=
  match codec with
  | ascii => if b < 0x80 then .char (Char.ofNat b) 1 else .wrong 1 "ordinal not in range(128)"
  | latin => .char (Char.ofNat b) 1
  | utf8 => utf8Step b rest

def standIn (policy : Policy) (bytes : List Nat) : List Char :=
  match policy with
  | .strict | .ignore => []
  | .replace => [Char.ofNat 0xFFFD]
  | .escape => bytes.flatMap fun b => '\\' :: 'x' :: (Fault.hexByte b).toList

def decodeFrom (codec : Codec) (policy : Policy) (pos : Nat) : Nat → List Nat → Except Fault (List Char)
  | _, [] => .ok []
  | 0, _ => .error .exhausted
  | fuel + 1, b :: rest =>
    match codec.step b rest with
    | .char c size => do
      return c :: (← decodeFrom codec policy (pos + size) fuel (rest.drop (size - 1)))
    | .wrong size reason =>
      if policy = .strict then .error (.undecodable codec.name b pos size reason)
      else do
        let rest' ← decodeFrom codec policy (pos + size) fuel (rest.drop (size - 1))
        return standIn policy ((b :: rest).take size) ++ rest'

def policyOf (name : String) : Policy :=
  match name with
  | "ignore" => .ignore
  | "replace" => .replace
  | "backslashreplace" => .escape
  | _ => .strict

def decode (codec : Codec) (policy : Policy) (bytes : List Nat) : Except Fault String :=
  (codec.decodeFrom policy 0 bytes.length bytes).map String.ofList

/-- The text of some bytes in the encoding with a name. -/
def decodeNamed (codec policy : String) (bytes : List Nat) : Except Fault String :=
  match ofName? codec with
  | some c => c.decode (policyOf policy) bytes
  | none => .error (.unknownCodec codec)

end Codec

end Throbac
