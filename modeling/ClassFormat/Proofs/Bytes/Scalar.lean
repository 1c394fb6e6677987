import ClassFormat.Bytes.Scalar
import ClassFormat.Proofs.Bytes.FixedWidth
import Mathlib.Algebra.BigOperators.Fin

/-!
Scalars in buffers: which buffers hold a value of a type, what number the bytes of a buffer stand
for, and that values and full buffers determine each other. Main statement: `fillsBuffers`.
-/
namespace ClassFormat

namespace BigEndian

/-- The sum of the bytes, each times the weight of its place. -/
def weighted (bytes : List UInt8) : Nat :=
  ∑ i : Fin bytes.length, bytes[i].toNat * 256 ^ (bytes.length - 1 - i)

theorem weighted_cons (b : UInt8) (bytes : List UInt8) :
    weighted (b :: bytes) = b.toNat * 256 ^ bytes.length + weighted bytes := by
  have later (i : Fin bytes.length) : bytes.length - i.succ = bytes.length - 1 - i := by
    rw [Fin.val_succ]
    omega
  change ∑ i : Fin (bytes.length + 1), (b :: bytes)[i].toNat * 256 ^ (bytes.length - i) = _
  rw [Fin.sum_univ_succ]
  simp only [later]
  rfl

theorem ofBytes_eq_weighted (bytes : List UInt8) : ofBytes bytes = weighted bytes := by
  induction bytes with
  | nil => rfl
  | cons b bytes ih => rw [ofBytes_cons, weighted_cons, ih]

/-- The number that `n` stands for where numbers from half of `limit` on count from below zero. -/
def twosComplement (limit n : Nat) : Int :=
  if 2 * n < limit then n else n - limit

end BigEndian

namespace ScalarType

/-- How many bytes the values of a type take. -/
def size : ScalarType → Nat
  | u8 | i8 => 1
  | u16 | i16 => 2
  | u32 | i32 | f32 => 4
  | u64 | i64 | f64 => 8

def isSigned : ScalarType → Bool
  | i8 | i16 | i32 | i64 => true
  | u8 | u16 | u32 | u64 | f32 | f64 => false

/-- The number that a value is; for a floating-point number, the one that its bits are. -/
def number : (t : ScalarType) → t.Value → Int
  | u8, v => v.toNat
  | i8, v => v.toInt
  | u16, v => v.toNat
  | i16, v => v.toInt
  | u32, v => v.toNat
  | i32, v => v.toInt
  | u64, v => v.toNat
  | i64, v => v.toInt
  | f32, v => v.bits.toNat
  | f64, v => v.bits.toNat

/-- The number that the bytes of a buffer stand for in a type. -/
def numberOf (t : ScalarType) (bytes : List UInt8) : Int :=
  if t.isSigned then BigEndian.twosComplement (256 ^ t.size) (BigEndian.weighted bytes)
  else BigEndian.weighted bytes

theorem width_eq (t : ScalarType) : FixedWidth.width t.Value = t.size := by
  cases t <;> rfl

theorem number_eq (t : ScalarType) (v : t.Value) :
    t.number v = if t.isSigned then (FixedWidth.toBits v).toInt
      else ((FixedWidth.toBits v).toNat : Int) := by
  cases t <;> rfl

theorem number_decode (t : ScalarType) {bytes : List UInt8} (full : bytes.length = t.size) :
    t.number (FixedWidth.decode bytes) = t.numberOf bytes := by
  have unsigned : (FixedWidth.toBits (FixedWidth.decode bytes : t.Value)).toNat =
      BigEndian.weighted bytes := by
    rw [FixedWidth.toNat_toBits_decode (full.trans t.width_eq.symm),
      BigEndian.ofBytes_eq_weighted]
  rw [number_eq, BitVec.toInt_eq_toNat_cond, unsigned, FixedWidth.two_pow_width, width_eq]
  rfl

/-- What comes of taking values of a type out of buffers and of putting them into buffers. -/
structure FillsBuffers (t : ScalarType) : Prop where
  too_small : ∀ (v : t.Value) (buffer : List UInt8), buffer.length < t.size →
    FixedWidth.extract (α := t.Value) buffer = .error (.tooSmall t.size buffer.length) ∧
      FixedWidth.deposit v buffer = (.error (.tooSmall t.size buffer.length), buffer)
  too_large : ∀ (v : t.Value) (buffer : List UInt8), t.size < buffer.length →
    FixedWidth.extract (α := t.Value) buffer = .error (.tooLarge t.size buffer.length) ∧
      FixedWidth.deposit v buffer = (.error (.tooLarge t.size buffer.length), buffer)
  deposited : ∀ (v : t.Value) (buffer : List UInt8), buffer.length = t.size →
    ∃ filled, FixedWidth.deposit v buffer = (.ok (), filled) ∧ filled.length = t.size ∧
      FixedWidth.extract filled = .ok v
  extracted : ∀ buffer : List UInt8, buffer.length = t.size →
    ∃ v : t.Value, FixedWidth.extract buffer = .ok v ∧ t.number v = t.numberOf buffer ∧
      ∀ other : List UInt8, other.length = t.size → FixedWidth.deposit v other = (.ok (), buffer)

/-- A buffer of the size of a type holds one value of the type, which is the number that its bytes
stand for; all other buffers are refused, and stay as they are. -/
theorem fillsBuffers (t : ScalarType) : t.FillsBuffers where
  too_small v buffer short := by
    have refused := SizeMismatch.check_of_lt short
    rw [← t.width_eq] at refused ⊢
    exact ⟨FixedWidth.extract_of_check_eq_error refused,
      FixedWidth.deposit_of_check_eq_error v refused⟩
  too_large v buffer long := by
    have refused := SizeMismatch.check_of_gt long
    rw [← t.width_eq] at refused ⊢
    exact ⟨FixedWidth.extract_of_check_eq_error refused,
      FixedWidth.deposit_of_check_eq_error v refused⟩
  deposited v buffer full := by
    have length : (FixedWidth.encode v).length = t.size := by
      rw [FixedWidth.length_encode, t.width_eq]
    refine ⟨FixedWidth.encode v, ?_, length, ?_⟩
    · exact FixedWidth.deposit_of_length v (full.trans t.width_eq.symm)
    · rw [FixedWidth.extract_of_length _ (FixedWidth.length_encode v), FixedWidth.decode_encode]
  extracted buffer full := by
    have fits := full.trans t.width_eq.symm
    refine ⟨FixedWidth.decode buffer, FixedWidth.extract_of_length buffer fits,
      t.number_decode full, fun other full' => ?_⟩
    rw [FixedWidth.deposit_of_length _ (full'.trans t.width_eq.symm),
      FixedWidth.encode_decode buffer fits]

/-- A NaN that signals, with a payload. -/
def signalingNaN : Binary32 := ⟨0x7FA00001⟩

theorem fillsBuffers_signalingNaN :
    (∃ filled, FixedWidth.deposit signalingNaN [9, 9, 9, 9] = (.ok (), filled) ∧
      FixedWidth.extract filled = .ok signalingNaN) ∧
    FixedWidth.deposit signalingNaN [9, 9, 9] = (.error (.tooSmall 4 3), [9, 9, 9]) ∧
    ∃ v : Int16, FixedWidth.extract [0xFF, 0xFE] = .ok v ∧ v.toInt = -2 := by
  obtain ⟨filled, put, _, taken⟩ := (fillsBuffers .f32).deposited signalingNaN [9, 9, 9, 9] rfl
  have short := (fillsBuffers .f32).too_small signalingNaN [9, 9, 9] (by decide)
  obtain ⟨v, taken', number, _⟩ := (fillsBuffers .i16).extracted [0xFF, 0xFE] rfl
  exact ⟨⟨filled, put, taken⟩, short.2, v, taken', number⟩

end ScalarType

end ClassFormat
