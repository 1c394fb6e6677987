import ClassFormat.Bytes.BigEndian

/-!
Values with one big-endian form of exactly `width` bytes. A buffer of any other length is refused;
nothing is cut off or padded.
-/
namespace ClassFormat

inductive SizeMismatch where
  | tooSmall (expected actual : Nat)
  | tooLarge (expected actual : Nat)
  deriving DecidableEq, Repr

namespace SizeMismatch

def check (expected actual : Nat) : Except SizeMismatch Unit :=
  if actual < expected then .error (.tooSmall expected actual)
  else if expected < actual then .error (.tooLarge expected actual)
  else .ok ()

def message : SizeMismatch → String
  | .tooSmall expected actual => s!"Buffer too small: expected {expected} bytes, got {actual}"
  | .tooLarge expected actual => s!"Buffer too large: expected {expected} bytes, got {actual}"

end SizeMismatch

class FixedWidth (α : Type) where
  width : Nat
  toBits : α → BitVec (8 * width)
  ofBits : BitVec (8 * width) → α

/-- A type whose values are exactly the words of `width` bytes. -/
class LawfulFixedWidth (α : Type) [FixedWidth α] : Prop where
  ofBits_toBits : ∀ v : α, FixedWidth.ofBits (FixedWidth.toBits v) = v
  toBits_ofBits : ∀ b, FixedWidth.toBits (FixedWidth.ofBits b : α) = b

namespace FixedWidth

variable {α : Type} [FixedWidth α]

def encode (v : α) : List UInt8 := BigEndian.toBytes (width α) (toBits v).toNat

def decode (bytes : List UInt8) : α := ofBits (BitVec.ofNat _ (BigEndian.ofBytes bytes))

def extract (buffer : List UInt8) : Except SizeMismatch α :=
  match SizeMismatch.check (width α) buffer.length with
  | .ok () => .ok (decode buffer)
  | .error mismatch => .error mismatch

/-- Gives the buffer as it is afterwards. -/
def deposit (v : α) (buffer : List UInt8) : Except SizeMismatch Unit × List UInt8 :=
  match SizeMismatch.check (width α) buffer.length with
  | .ok () => (.ok (), encode v)
  | .error mismatch => (.error mismatch, buffer)

@[simp] theorem length_encode (v : α) : (encode v).length = width α := by
  simp [encode]

end FixedWidth

instance : FixedWidth UInt8 := ⟨1, (·.toBitVec), .ofBitVec⟩
instance : FixedWidth UInt16 := ⟨2, (·.toBitVec), .ofBitVec⟩
instance : FixedWidth UInt32 := ⟨4, (·.toBitVec), .ofBitVec⟩
instance : FixedWidth UInt64 := ⟨8, (·.toBitVec), .ofBitVec⟩
instance : FixedWidth Int8 := ⟨1, (·.toBitVec), .ofBitVec⟩
instance : FixedWidth Int16 := ⟨2, (·.toBitVec), .ofBitVec⟩
instance : FixedWidth Int32 := ⟨4, (·.toBitVec), .ofBitVec⟩
instance : FixedWidth Int64 := ⟨8, (·.toBitVec), .ofBitVec⟩

instance : LawfulFixedWidth UInt8 := ⟨fun _ => rfl, fun _ => rfl⟩
instance : LawfulFixedWidth UInt16 := ⟨fun _ => rfl, fun _ => rfl⟩
instance : LawfulFixedWidth UInt32 := ⟨fun _ => rfl, fun _ => rfl⟩
instance : LawfulFixedWidth UInt64 := ⟨fun _ => rfl, fun _ => rfl⟩
instance : LawfulFixedWidth Int8 := ⟨fun _ => rfl, fun _ => rfl⟩
instance : LawfulFixedWidth Int16 := ⟨fun _ => rfl, fun _ => rfl⟩
instance : LawfulFixedWidth Int32 := ⟨fun _ => rfl, fun _ => rfl⟩
instance : LawfulFixedWidth Int64 := ⟨fun _ => rfl, fun _ => rfl⟩

end ClassFormat
