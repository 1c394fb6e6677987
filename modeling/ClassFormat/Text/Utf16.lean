/-!
Characters as UTF-16 code units: one unit below 65536, a surrogate pair above.
-/
namespace ClassFormat.Utf16

def isHigh (u : Nat) : Bool := 0xD800 ≤ u && u < 0xDC00

def isLow (u : Nat) : Bool := 0xDC00 ≤ u && u < 0xE000

def ofChar (c : Char) : List Nat :=
  if c.toNat < 0x10000 then [c.toNat]
  else [0xD800 + (c.toNat - 0x10000) / 0x400, 0xDC00 + (c.toNat - 0x10000) % 0x400]

def pair (high low : Nat) : Char :=
  Char.ofNat (0x10000 + (high - 0xD800) * 0x400 + (low - 0xDC00))

def encode (cs : List Char) : List Nat := cs.flatMap ofChar

/-- The characters of `found` came before, the last of them first. -/
def decodeOnto : List Nat → List Char → Option (List Char)
  | [], found => some found.reverse
  | [u], found => if isHigh u || isLow u then none else some (Char.ofNat u :: found).reverse
  | u :: v :: rest, found =>
    if isHigh u then if isLow v then decodeOnto rest (pair u v :: found) else none
    else if isLow u then none
    else decodeOnto (v :: rest) (Char.ofNat u :: found)

/-- A surrogate that is not part of a pair is refused. -/
def decode (units : List Nat) : Option (List Char) := decodeOnto units []

end ClassFormat.Utf16
