import ClassFormat.Text.Utf16

/-!
Modified UTF-8: each UTF-16 code unit takes one, two or three bytes by itself, and unit 0 takes two,
so that no byte is zero. Decoding accepts canonical forms alone.
-/
namespace ClassFormat.ModifiedUtf8

def encodeUnit (u : Nat) : List UInt8 :=
  if u ≠ 0 ∧ u < 0x80 then [UInt8.ofNat u]
  else if u < 0x800 then [UInt8.ofNat (0xC0 + u / 0x40), UInt8.ofNat (0x80 + u % 0x40)]
  else [UInt8.ofNat (0xE0 + u / 0x1000), UInt8.ofNat (0x80 + u / 0x40 % 0x40),
    UInt8.ofNat (0x80 + u % 0x40)]

def isContinuation (b : UInt8) : Bool := 0x80 ≤ b && b < 0xC0

def unit2 (b₁ b₂ : UInt8) : Nat := (b₁.toNat - 0xC0) * 0x40 + (b₂.toNat - 0x80)

def unit3 (b₁ b₂ b₃ : UInt8) : Nat :=
  (b₁.toNat - 0xE0) * 0x1000 + (b₂.toNat - 0x80) * 0x40 + (b₃.toNat - 0x80)

/-- A unit is accepted only in the form in which it is encoded: the zero byte, overlong forms, stray
continuations, cut-off forms and bytes from 0xF0 on are refused. -/
def decodeUnitsOnto : List UInt8 → List Nat → Option (List Nat)
  | [], found => some found.reverse
  | b₁ :: rest, found =>
    if b₁ < 0x80 then
      if b₁ = 0 then none else decodeUnitsOnto rest (b₁.toNat :: found)
    else if b₁ < 0xC0 then none
    else if b₁ < 0xE0 then
      match rest with
      | b₂ :: rest =>
        if isContinuation b₂ && (unit2 b₁ b₂ == 0 || 0x80 ≤ unit2 b₁ b₂) then
          decodeUnitsOnto rest (unit2 b₁ b₂ :: found)
        else none
      | _ => none
    else if b₁ < 0xF0 then
      match rest with
      | b₂ :: b₃ :: rest =>
        if isContinuation b₂ && isContinuation b₃ && 0x800 ≤ unit3 b₁ b₂ b₃ then
          decodeUnitsOnto rest (unit3 b₁ b₂ b₃ :: found)
        else none
      | _ => none
    else none

def decodeUnits (bytes : List UInt8) : Option (List Nat) := decodeUnitsOnto bytes []

def encode (cs : List Char) : List UInt8 := (Utf16.encode cs).flatMap encodeUnit

def decode (bytes : List UInt8) : Option (List Char) := (decodeUnits bytes).bind Utf16.decode

end ClassFormat.ModifiedUtf8
