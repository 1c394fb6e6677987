import ClassFormat.Bytes.Sink
import ClassFormat.Bytes.Source
import ClassFormat.ClassFile.Basic

/-!
The binary form of a class file. The minor number of the version comes first.
-/
namespace ClassFormat.ClassFile

def magic : UInt32 := 0xCAFEBABE

def reading : Reading ClassFile := do
  let start ← Reading.value UInt32
  if start ≠ magic then .refuse (.notAClassFile start)
  else
    let minor ← Reading.value UInt16
    let major ← Reading.value UInt16
    let count ← Reading.value UInt16
    let pool ← Pool.reading count
    let bits ← Reading.value UInt16
    let thisClass ← Reading.value UInt16
    let superClass ← Reading.value UInt16
    let interfaceCount ← Reading.value UInt16
    let interfaces ← Reading.table interfaceCount.toNat (Reading.value UInt16)
    let fields ← Member.tableReading
    let methods ← Member.tableReading
    let attributes ← Attribute.tableReading
    return {
      version := ⟨major, minor⟩
      pool, flags := ⟨bits⟩, thisClass, superClass, interfaces, fields, methods, attributes
    }

def writing (c : ClassFile) : Writing :=
  .all [.value magic, .value c.version.minor, .value c.version.major, c.pool.writing,
    .value c.flags.bits, .value c.thisClass, .value c.superClass,
    .table Writing.value c.interfaces, .table Member.writing c.fields,
    .table Member.writing c.methods, Attribute.tableWriting c.attributes]

def decodeFrom (source : Source) : Except DecodeError ClassFile × Source :=
  let reply := reading.drain source
  match reply.result with
  | .ok c => (.ok c, reply.rest)
  | .error fault => (.error ⟨reply.consumed, fault⟩, reply.rest)

/-- The class file that takes up all of the bytes. -/
def decode (bytes : List UInt8) : Except DecodeError ClassFile :=
  let reply := reading.run bytes
  match reply.result with
  | .error fault => .error ⟨reply.consumed, fault⟩
  | .ok c => if reply.rest.isEmpty then .ok c else .error ⟨reply.consumed, .unexpectedData⟩

def encode (c : ClassFile) : Except EncodeFault (List UInt8) := c.writing.toBytes

end ClassFormat.ClassFile
