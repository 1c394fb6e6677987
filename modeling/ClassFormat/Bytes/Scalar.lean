import ClassFormat.Bytes.Binary

/-!
The ten value types of fixed width, as data: a run of values of mixed types is a list.
-/
namespace ClassFormat

inductive ScalarType where
  | u8 | i8 | u16 | i16 | u32 | i32 | u64 | i64 | f32 | f64
  deriving DecidableEq, Repr

namespace ScalarType

abbrev Value : ScalarType → Type
  | u8 => UInt8
  | i8 => Int8
  | u16 => UInt16
  | i16 => Int16
  | u32 => UInt32
  | i32 => Int32
  | u64 => UInt64
  | i64 => Int64
  | f32 => Binary32
  | f64 => Binary64

instance : (t : ScalarType) → FixedWidth t.Value
  | u8 => inferInstanceAs (FixedWidth UInt8)
  | i8 => inferInstanceAs (FixedWidth Int8)
  | u16 => inferInstanceAs (FixedWidth UInt16)
  | i16 => inferInstanceAs (FixedWidth Int16)
  | u32 => inferInstanceAs (FixedWidth UInt32)
  | i32 => inferInstanceAs (FixedWidth Int32)
  | u64 => inferInstanceAs (FixedWidth UInt64)
  | i64 => inferInstanceAs (FixedWidth Int64)
  | f32 => inferInstanceAs (FixedWidth Binary32)
  | f64 => inferInstanceAs (FixedWidth Binary64)

instance (t : ScalarType) : LawfulFixedWidth t.Value := by
  cases t <;> exact ⟨fun _ => rfl, fun _ => rfl⟩

end ScalarType

structure Scalar where
  type : ScalarType
  value : type.Value

end ClassFormat
