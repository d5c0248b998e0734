import Throbac.Text.Decode

/-!
# The string functions of generated programs

Strings of a generated program are bytes up to the first null. Its functions count bytes, their
arguments are words of 32 bits, and lengths are unsigned words of 64 bits.
-/
namespace Throbac

structure CString where
  bytes : List UInt8
  deriving DecidableEq, Repr, Inhabited

namespace CString

def ofString (s : String) : CString := ⟨s.toUTF8.toList.takeWhile (· != 0)⟩

/-- The text of the bytes; what is no text shows as replaced. -/
def toString (s : CString) : String :=
  ((Codec.utf8.decode .replace (s.bytes.map UInt8.toNat)).toOption).getD ""

def size (s : CString) : UInt64 := s.bytes.length.toUInt64

def cat (a b : CString) : CString := ⟨a.bytes ++ b.bytes⟩

def length (s : CString) : Int32 := s.size.toUInt32.toInt32

/-- A word of 32 bits as an unsigned word of 64 bits, its sign repeated. -/
def widen (n : Int32) : UInt64 := n.toInt64.toUInt64

/-- The piece of the length from a start. Without such a piece the program aborts; it also aborts
where the start is behind the length and where the piece is the whole of the string. -/
def substring (s : CString) (start length : Int32) : Option CString :=
  if start < 0 ∨ start > length ∨ widen length > s.size - 1 ∨ widen (start + length) > s.size then none
  else some ⟨(s.bytes.drop start.toNatClampNeg).take length.toNatClampNeg⟩

end CString

end Throbac
