import ClassFormat.Text.Hex
import ClassFormat.Text.ModifiedUtf8

/-!
Strings of a class file. Bytes in canonical modified UTF-8 are text; all others are kept as they
are, so that every string is written back as it was read.
-/
namespace ClassFormat

inductive JavaString where
  | text (value : String)
  | raw (bytes : List UInt8)
  deriving DecidableEq, Repr

namespace JavaString

def ofBytes (bytes : List UInt8) : JavaString :=
  match ModifiedUtf8.decode bytes with
  | some cs => text (String.ofList cs)
  | none => raw bytes

def toBytes : JavaString → List UInt8
  | text value => ModifiedUtf8.encode value.toList
  | raw bytes => bytes

def text? : JavaString → Option String
  | text value => some value
  | raw _ => none

def isText (s : JavaString) (value : String) : Bool := s.text? == some value

def display : JavaString → String
  | text value => value
  | raw bytes =>
    " ".intercalate (bytes.map fun b => "0x" ++ Hex.upperByte b) ++ " // Invalid modified UTF-8"

end JavaString

end ClassFormat
