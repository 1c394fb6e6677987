/-!
Numbers as bytes, the most significant byte first. Unlike `^`, `Nat.pow` is the same whatever is
imported.
-/
namespace ClassFormat.BigEndian

/-- The last `n` base-256 digits of `v`, the most significant first. -/
def toBytes : Nat → Nat → List UInt8
  | 0, _ => []
  | n + 1, v => UInt8.ofNat (v / Nat.pow 256 n) :: toBytes n v

def ofBytes (bytes : List UInt8) : Nat :=
  bytes.foldl (fun v b => v * 256 + b.toNat) 0

@[simp] theorem length_toBytes (n v : Nat) : (toBytes n v).length = n := by
  induction n with
  | zero => rfl
  | succ n ih => simp [toBytes, ih]

end ClassFormat.BigEndian
