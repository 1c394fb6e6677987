import ClassFormat.Bytes.Reading

/-!
Encoders as data. A writing is the run of chunks that it hands to a sink one after the other, and
the fault that stops it after the last of them, if any.
-/
namespace ClassFormat

structure Writing where
  chunks : List (List UInt8)
  fault : Option EncodeFault
  deriving DecidableEq, Repr

namespace Writing

def empty : Writing := ⟨[], none⟩

def refuse (fault : EncodeFault) : Writing := ⟨[], some fault⟩

def bytes (chunk : List UInt8) : Writing := ⟨[chunk], none⟩

def value {α : Type} [FixedWidth α] (v : α) : Writing :=
  if FixedWidth.width α ≤ Reading.streamWidth then bytes (FixedWidth.encode v)
  else refuse (.sizeMismatch (.tooSmall (FixedWidth.width α) Reading.streamWidth))

def length (width n : Nat) : Writing :=
  if n < Nat.pow 256 width then bytes (BigEndian.toBytes width n) else refuse .outOfRange

/-- The second is not begun when the first is stopped. -/
def append (first second : Writing) : Writing :=
  match first.fault with
  | some _ => first
  | none => ⟨first.chunks ++ second.chunks, second.fault⟩

instance : Append Writing := ⟨append⟩

def all (ws : List Writing) : Writing := ws.foldr (· ++ ·) empty

def table {α : Type} (item : α → Writing) (items : List α) : Writing :=
  length 2 items.length ++ all (items.map item)

def toBytes (w : Writing) : Except EncodeFault (List UInt8) :=
  match w.fault with
  | some fault => .error fault
  | none => .ok w.chunks.flatten

end Writing

end ClassFormat
