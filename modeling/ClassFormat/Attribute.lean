import ClassFormat.Pool.Codec

/-!
Attributes. Their bodies are not interpreted.
-/
namespace ClassFormat

structure Attribute where
  name : PoolIndex
  info : List UInt8
  deriving DecidableEq, Repr

namespace Attribute

def nameIn (a : Attribute) (p : Pool) : Except PoolError JavaString := p.string a.name

def reading : Reading Attribute := do
  let name ← Reading.value UInt16
  let length ← Reading.value UInt32
  let info ← Reading.bytes length.toNat
  return ⟨name, info⟩

def tableReading : Reading (List Attribute) := do
  let count ← Reading.value UInt16
  Reading.table count.toNat reading

def writing (a : Attribute) : Writing := .value a.name ++ (.length 4 a.info.length ++ .bytes a.info)

def tableWriting (attributes : List Attribute) : Writing := .table writing attributes

end Attribute

end ClassFormat
