import ClassFormat.Bytes.FixedWidth
import ClassFormat.Constant.ReferenceKind
import ClassFormat.Text.Hex

/-!
Why decoding or encoding stops, with one text for each cause.
-/
namespace ClassFormat

inductive DecodeFault where
  | notAClassFile (magic : UInt32)
  | truncated
  | readFail (reason : String)
  /-- The pool announces no slots, not even the unused one at index 0. -/
  | emptyConstantPool
  /-- The second slot of a wide constant lies beyond the announced count. -/
  | constantPoolOverrun
  | unexpectedConstantPoolTag (tag : UInt8)
  | invalidReferenceKind (invalid : InvalidReferenceKind)
  | sizeMismatch (mismatch : SizeMismatch)
  | unexpectedData
  deriving DecidableEq, Repr

def DecodeFault.message : DecodeFault → String
  | notAClassFile magic =>
    "The buffer does not contain a Java class file, magic number is 0x" ++ Hex.upperWord magic
  | truncated => "Unexpected end of input"
  | readFail reason => s!"Failed to read from buffer: {reason}"
  | emptyConstantPool => "The constant pool count must be at least 1"
  | constantPoolOverrun => "An eight-byte constant overruns the constant pool count"
  | unexpectedConstantPoolTag tag => s!"Unexpected constant pool tag {tag.toNat}"
  | invalidReferenceKind invalid => invalid.message
  | sizeMismatch mismatch => mismatch.message
  | unexpectedData => "Unexpected data at the end of the file"

/-- A fault and the number of bytes consumed when it was noticed. -/
structure DecodeError where
  offset : Nat
  fault : DecodeFault
  deriving DecidableEq, Repr

def DecodeError.message (e : DecodeError) : String :=
  s!"Malformed class file at byte offset {e.offset}: " ++ e.fault.message

inductive EncodeFault where
  | writeFail
  | outOfRange
  | sizeMismatch (mismatch : SizeMismatch)
  deriving DecidableEq, Repr

def EncodeFault.message : EncodeFault → String
  | writeFail => "Failed to write to buffer: failed to write whole buffer"
  | outOfRange => "Length out of range: number too large to fit in target type"
  | sizeMismatch mismatch => mismatch.message

end ClassFormat
