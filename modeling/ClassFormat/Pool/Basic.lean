import ClassFormat.Constant.Basic

/-!
The constant pool: slots numbered from 0, of which slot 0 and the second slot of every wide
constant hold nothing. Operations that may fail give the pool as it is afterwards; after a failure
it is as it was before.
-/
namespace ClassFormat

inductive Slot where
  | entry (constant : Constant)
  | gap
  deriving DecidableEq, Repr

structure Pool where
  slots : Array Slot
  deriving DecidableEq, Repr

inductive PoolError where
  | invalidIndex (index : PoolIndex)
  | kindMismatch (index : PoolIndex) (expected found : ConstantKind)
  | overflow
  | widthMismatch (index : PoolIndex) (current replacement : ConstantKind)
  deriving DecidableEq, Repr

def PoolError.message : PoolError → String
  | invalidIndex index => s!"Bad constant pool index: {index.toNat}"
  | kindMismatch index expected found =>
    s!"Mismatched constant pool entry at #{index.toNat}, expected {expected.text}, " ++
      s!"but found {found.text}"
  | overflow => "The constant pool is full"
  | widthMismatch index current replacement =>
    s!"Cannot replace {current.text} at #{index.toNat} with {replacement.text} " ++
      "of a different width"

def Slot.constant? : Slot → Option Constant
  | entry constant => some constant
  | gap => none

def Slot.valueEq : Slot → Slot → Bool
  | entry a, entry b => a.valueEq b
  | gap, gap => true
  | _, _ => false

namespace Pool

def empty : Pool := ⟨#[.gap]⟩

instance : Inhabited Pool := ⟨empty⟩

def capacity : Nat := 0xFFFF

def count (p : Pool) : UInt16 := UInt16.ofNat p.slots.size

def get (p : Pool) (index : PoolIndex) : Except PoolError Constant :=
  match p.slots[index.toNat]? with
  | some (.entry constant) => .ok constant
  | _ => .error (.invalidIndex index)

def resolve (p : Pool) (index : PoolIndex) (expected : ConstantKind) : Except PoolError Constant :=
  match p.get index with
  | .error e => .error e
  | .ok c => if c.kind = expected then .ok c else .error (.kindMismatch index expected c.kind)

def string (p : Pool) (index : PoolIndex) : Except PoolError JavaString :=
  match p.get index with
  | .error e => .error e
  | .ok (.utf8 value) => .ok value
  | .ok c => .error (.kindMismatch index .utf8 c.kind)

def className (p : Pool) (index : PoolIndex) : Except PoolError JavaString :=
  match p.get index with
  | .error e => .error e
  | .ok (.classRef name) => p.string name
  | .ok c => .error (.kindMismatch index .classRef c.kind)

def entries (p : Pool) : List (PoolIndex × Constant) :=
  p.slots.toList.zipIdx.filterMap fun (slot, i) =>
    slot.constant?.map fun constant => (UInt16.ofNat i, constant)

def length (p : Pool) : Nat := p.entries.length

def isEmpty (p : Pool) : Bool := p.slots.size ≤ 1

def find? (p : Pool) (property : Constant → Bool) : Option (PoolIndex × Constant) :=
  p.entries.find? fun (_, constant) => property constant

/-- Puts a constant behind the last slot, whatever the size of the pool. -/
def append (p : Pool) (c : Constant) : Pool :=
  ⟨if c.isWide then (p.slots.push (.entry c)).push .gap else p.slots.push (.entry c)⟩

def ofConstants (cs : List Constant) : Pool := cs.foldl append empty

def insert (p : Pool) (c : Constant) : Except PoolError PoolIndex × Pool :=
  if p.slots.size + c.width > capacity then (.error .overflow, p)
  else (.ok p.count, p.append c)

/-- The index of the first equal constant; the constant is inserted only if there is none. -/
def findOrInsert (p : Pool) (c : Constant) : Except PoolError PoolIndex × Pool :=
  match p.find? (·.valueEq c) with
  | some (index, _) => (.ok index, p)
  | none => p.insert c

/-- Puts a constant in the place of another of the same width, which it gives back. -/
def replace (p : Pool) (index : PoolIndex) (c : Constant) : Except PoolError Constant × Pool :=
  match p.get index with
  | .error e => (.error e, p)
  | .ok old =>
    if old.isWide = c.isWide then (.ok old, ⟨p.slots.setIfInBounds index.toNat (.entry c)⟩)
    else (.error (.widthMismatch index old.kind c.kind), p)

def valueEq (p q : Pool) : Bool := p.slots.isEqv q.slots Slot.valueEq

end Pool

end ClassFormat
