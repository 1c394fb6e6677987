namespace ClassFormat.Hex

def fixed (digit : Nat → Char) : Nat → Nat → List Char
  | 0, _ => []
  | n + 1, v => digit (v / Nat.pow 16 n % 16) :: fixed digit n v

def lowerDigit (d : Nat) : Char := Nat.digitChar d

def upperDigit (d : Nat) : Char := (Nat.digitChar d).toUpper

def upperByte (b : UInt8) : String := String.ofList (fixed upperDigit 2 b.toNat)

def upperWord (w : UInt32) : String := String.ofList (fixed upperDigit 8 w.toNat)

def lower (v : Nat) : String := String.ofList (Nat.toDigits 16 v)

end ClassFormat.Hex
