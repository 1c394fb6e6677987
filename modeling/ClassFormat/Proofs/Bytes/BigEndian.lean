import ClassFormat.Bytes.BigEndian
import Mathlib.Algebra.Group.Nat.Defs

/-!
Numbers and bytes are inverse to each other on lists of one length. Main statements:
`ofBytes_toBytes` and `toBytes_ofBytes`.
-/
namespace ClassFormat.BigEndian

theorem toBytes_succ (n v : Nat) :
    toBytes (n + 1) v = UInt8.ofNat (v / 256 ^ n) :: toBytes n v :=
  rfl

theorem foldl_digits (bytes : List UInt8) (v : Nat) :
    bytes.foldl (fun v b => v * 256 + b.toNat) v = v * 256 ^ bytes.length + ofBytes bytes := by
  induction bytes generalizing v with
  | nil => simp [ofBytes]
  | cons b bytes ih =>
    have first : ofBytes (b :: bytes) = (0 * 256 + b.toNat) * 256 ^ bytes.length + ofBytes bytes :=
      ih _
    rw [List.foldl_cons, ih, first, List.length_cons, Nat.pow_succ]
    simp only [Nat.add_mul, Nat.mul_assoc, Nat.mul_comm 256, Nat.add_assoc, Nat.zero_mul,
      Nat.zero_add]

theorem ofBytes_cons (b : UInt8) (bytes : List UInt8) :
    ofBytes (b :: bytes) = b.toNat * 256 ^ bytes.length + ofBytes bytes := by
  have first := foldl_digits bytes (0 * 256 + b.toNat)
  simpa [ofBytes] using first

theorem ofBytes_lt (bytes : List UInt8) : ofBytes bytes < 256 ^ bytes.length := by
  induction bytes with
  | nil => simp [ofBytes]
  | cons b bytes ih =>
    have digit : b.toNat * 256 ^ bytes.length ≤ 255 * 256 ^ bytes.length :=
      Nat.mul_le_mul_right _ (Nat.le_of_lt_succ b.toNat_lt)
    rw [ofBytes_cons, List.length_cons, Nat.pow_succ]
    omega

theorem ofBytes_toBytes (n v : Nat) : ofBytes (toBytes n v) = v % 256 ^ n := by
  induction n with
  | zero => simp [toBytes, ofBytes, Nat.mod_one]
  | succ n ih =>
    have split : v % 256 ^ (n + 1) = v % 256 ^ n + 256 ^ n * (v / 256 ^ n % 256) := by
      rw [Nat.pow_succ, Nat.mod_mul]
    rw [toBytes_succ, ofBytes_cons, ih, length_toBytes, UInt8.toNat_ofNat', split, Nat.add_comm,
      Nat.mul_comm]

/-- Digits above the `n`-th do not count. -/
theorem toBytes_add_mul (n a v : Nat) : toBytes n (a * 256 ^ n + v) = toBytes n v := by
  induction n generalizing a with
  | zero => rfl
  | succ n ih =>
    have shift : a * 256 ^ (n + 1) + v = a * 256 * 256 ^ n + v := by
      rw [Nat.pow_succ, Nat.mul_comm (256 ^ n), Nat.mul_assoc]
    have digit : (a * 256 * 256 ^ n + v) / 256 ^ n = a * 256 + v / 256 ^ n := by
      rw [Nat.add_comm, Nat.add_mul_div_right _ _ (Nat.pow_pos (by decide)), Nat.add_comm]
    rw [toBytes_succ, toBytes_succ, shift, ih, digit]
    congr 1
    apply UInt8.toNat_inj.mp
    simp only [UInt8.toNat_ofNat']
    omega

theorem toBytes_ofBytes (bytes : List UInt8) : toBytes bytes.length (ofBytes bytes) = bytes := by
  induction bytes with
  | nil => rfl
  | cons b bytes ih =>
    have digit : (b.toNat * 256 ^ bytes.length + ofBytes bytes) / 256 ^ bytes.length = b.toNat := by
      rw [Nat.add_comm, Nat.add_mul_div_right _ _ (Nat.pow_pos (by decide)),
        Nat.div_eq_of_lt (ofBytes_lt bytes), Nat.zero_add]
    rw [List.length_cons, toBytes_succ, ofBytes_cons, toBytes_add_mul, ih, digit, UInt8.ofNat_toNat]

end ClassFormat.BigEndian
