import ClassFormat.Bytes.FixedWidth

/-!
IEEE 754 numbers kept as words. `ieeeEq` compares them as numbers: a NaN differs from itself, and
the two zeros are equal.
-/
namespace ClassFormat

structure Binary32 where
  bits : UInt32
  deriving DecidableEq, Repr

structure Binary64 where
  bits : UInt64
  deriving DecidableEq, Repr

namespace Binary32

def magnitude (x : Binary32) : UInt32 := x.bits &&& 0x7FFFFFFF

def isNaN (x : Binary32) : Bool := 0x7F800000 < x.magnitude

def ieeeEq (x y : Binary32) : Bool :=
  !x.isNaN && !y.isNaN && (x.bits == y.bits || (x.magnitude == 0 && y.magnitude == 0))

end Binary32

namespace Binary64

def magnitude (x : Binary64) : UInt64 := x.bits &&& 0x7FFFFFFFFFFFFFFF

def isNaN (x : Binary64) : Bool := 0x7FF0000000000000 < x.magnitude

def ieeeEq (x y : Binary64) : Bool :=
  !x.isNaN && !y.isNaN && (x.bits == y.bits || (x.magnitude == 0 && y.magnitude == 0))

end Binary64

instance : FixedWidth Binary32 := ⟨4, (·.bits.toBitVec), fun b => ⟨.ofBitVec b⟩⟩
instance : FixedWidth Binary64 := ⟨8, (·.bits.toBitVec), fun b => ⟨.ofBitVec b⟩⟩

instance : LawfulFixedWidth Binary32 := ⟨fun _ => rfl, fun _ => rfl⟩
instance : LawfulFixedWidth Binary64 := ⟨fun _ => rfl, fun _ => rfl⟩

end ClassFormat
