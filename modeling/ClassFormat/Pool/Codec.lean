import ClassFormat.Constant.Codec
import ClassFormat.Pool.Basic

/-!
The binary form of a constant pool. Gaps are not written, but counted.
-/
namespace ClassFormat.Pool

/-- A wide constant for which one slot is left is refused once it has been read. -/
def constantsOnto : (left : Nat) → List Constant → Reading (List Constant)
  | 0, found => .done found.reverse
  | n + 1, found => Constant.reading.bind fun c =>
    if c.isWide then
      match n with
      | 0 => .refuse .constantPoolOverrun
      | m + 1 => constantsOnto m (c :: found)
    else constantsOnto n (c :: found)

def reading (count : UInt16) : Reading Pool :=
  if count = 0 then .refuse .emptyConstantPool
  else (constantsOnto (count.toNat - 1) []).bind fun cs => .done (ofConstants cs)

def writing (p : Pool) : Writing :=
  .value p.count ++ .all (p.entries.map fun (_, c) => c.writing)

end ClassFormat.Pool
