import ClassFormat.Bytes.FixedWidth
import ClassFormat.Proofs.Bytes.BigEndian

/-!
Taking out and putting in of values of fixed width are inverse to each other, and buffers of another
length are refused.
-/
namespace ClassFormat

namespace SizeMismatch

variable {expected actual : Nat}

theorem check_of_lt (short : actual < expected) :
    check expected actual = .error (.tooSmall expected actual) := by
  simp only [check, if_pos short]

theorem check_of_gt (long : expected < actual) :
    check expected actual = .error (.tooLarge expected actual) := by
  simp only [check, if_neg (Nat.lt_asymm long), if_pos long]

end SizeMismatch

namespace FixedWidth

variable {α : Type} [FixedWidth α]

theorem two_pow_width : 2 ^ (8 * width α) = 256 ^ width α := by
  rw [Nat.pow_mul]

theorem ofBytes_encode (v : α) : BigEndian.ofBytes (encode v) = (toBits v).toNat := by
  have fits : (toBits v).toNat < 256 ^ width α := two_pow_width (α := α) ▸ (toBits v).isLt
  rw [encode, BigEndian.ofBytes_toBytes, Nat.mod_eq_of_lt fits]

theorem encode_byte (b : UInt8) : encode b = [b] := by
  have whole : b.toNat / 256 ^ 0 = b.toNat := by rw [Nat.pow_zero, Nat.div_one]
  change [UInt8.ofNat (b.toNat / 256 ^ 0)] = [b]
  rw [whole, UInt8.ofNat_toNat]

theorem extract_of_length (bytes : List UInt8) (full : bytes.length = width α) :
    extract bytes = .ok (decode bytes : α) := by
  simp [extract, SizeMismatch.check, full]

theorem deposit_of_length (v : α) {buffer : List UInt8} (full : buffer.length = width α) :
    deposit v buffer = (.ok (), encode v) := by
  simp [deposit, SizeMismatch.check, full]

theorem extract_of_check_eq_error {bytes : List UInt8} {mismatch : SizeMismatch}
    (refused : SizeMismatch.check (width α) bytes.length = .error mismatch) :
    extract bytes = (.error mismatch : Except SizeMismatch α) := by
  simp only [extract, refused]

/-- A buffer that is refused stays as it is. -/
theorem deposit_of_check_eq_error (v : α) {buffer : List UInt8} {mismatch : SizeMismatch}
    (refused : SizeMismatch.check (width α) buffer.length = .error mismatch) :
    deposit v buffer = (.error mismatch, buffer) := by
  simp only [deposit, refused]

section Lawful

variable [LawfulFixedWidth α]

@[simp] theorem decode_encode (v : α) : decode (encode v) = v := by
  rw [decode, ofBytes_encode, BitVec.ofNat_toNat, BitVec.setWidth_eq,
    LawfulFixedWidth.ofBits_toBits]

theorem encode_inj {v w : α} : encode v = encode w ↔ v = w := by
  constructor
  · intro same
    rw [← decode_encode v, same, decode_encode]
  · rintro rfl
    rfl

theorem encode_decode (bytes : List UInt8) (full : bytes.length = width α) :
    encode (decode bytes : α) = bytes := by
  have fits : BigEndian.ofBytes bytes < 2 ^ (8 * width α) := by
    rw [two_pow_width, ← full]
    exact BigEndian.ofBytes_lt bytes
  rw [encode, decode, LawfulFixedWidth.toBits_ofBits, BitVec.toNat_ofNat, Nat.mod_eq_of_lt fits,
    ← full, BigEndian.toBytes_ofBytes]

theorem toNat_toBits_decode {bytes : List UInt8} (full : bytes.length = width α) :
    (toBits (decode bytes : α)).toNat = BigEndian.ofBytes bytes := by
  rw [← ofBytes_encode, encode_decode bytes full]

/-- The big-endian form of a value is that of its unsigned reading. -/
theorem encode_eq_iff (n : Nat) (bytes : List UInt8) :
    (n < 256 ^ width α ∧ bytes = BigEndian.toBytes (width α) n) ↔
      ∃ v : α, (toBits v).toNat = n ∧ bytes = encode v := by
  constructor
  · rintro ⟨fits, rfl⟩
    have value : (toBits (ofBits (BitVec.ofNat _ n) : α)).toNat = n := by
      rw [LawfulFixedWidth.toBits_ofBits, BitVec.toNat_ofNat, two_pow_width, Nat.mod_eq_of_lt fits]
    exact ⟨ofBits (BitVec.ofNat _ n), value, by rw [encode, value]⟩
  · rintro ⟨v, rfl, rfl⟩
    exact ⟨two_pow_width (α := α) ▸ (toBits v).isLt, rfl⟩

end Lawful

end FixedWidth

end ClassFormat
