import ClassFormat.Attribute
import ClassFormat.Flags.Basic

/-!
Fields and methods, which have the same parts and differ in their flags.
-/
namespace ClassFormat

structure Member (o : FlagOwner) where
  flags : Flags o
  name : PoolIndex
  descriptor : PoolIndex
  attributes : List Attribute
  deriving DecidableEq, Repr

abbrev Field := Member .field
abbrev Method := Member .method

def Method.constructorName : String := "<init>"

def Method.classInitializerName : String := "<clinit>"

namespace Member

variable {o : FlagOwner}

def nameIn (m : Member o) (p : Pool) : Except PoolError JavaString := p.string m.name

def descriptorIn (m : Member o) (p : Pool) : Except PoolError JavaString := p.string m.descriptor

def reading : Reading (Member o) := do
  let bits ← Reading.value UInt16
  let name ← Reading.value UInt16
  let descriptor ← Reading.value UInt16
  let attributes ← Attribute.tableReading
  return ⟨⟨bits⟩, name, descriptor, attributes⟩

def tableReading : Reading (List (Member o)) := do
  let count ← Reading.value UInt16
  Reading.table count.toNat reading

def writing (m : Member o) : Writing :=
  .value m.flags.bits ++ (.value m.name ++ (.value m.descriptor ++
    Attribute.tableWriting m.attributes))

end Member

end ClassFormat
