import ClassFormat.Bytes.Writing
import ClassFormat.Constant.Basic

/-!
The binary form of a constant: its tag, then its parts in order.
-/
namespace ClassFormat.Constant

def partsReading : ConstantKind → Reading Constant
  | .utf8 => do
    let length ← Reading.value UInt16
    let bytes ← Reading.bytes length.toNat
    return utf8 (JavaString.ofBytes bytes)
  | .integer => do
    let value ← Reading.value Int32
    return integer value
  | .float => do
    let value ← Reading.value Binary32
    return float value
  | .long => do
    let value ← Reading.value Int64
    return long value
  | .double => do
    let value ← Reading.value Binary64
    return double value
  | .classRef => do
    let name ← Reading.value UInt16
    return classRef name
  | .stringRef => do
    let value ← Reading.value UInt16
    return stringRef value
  | .fieldRef => do
    let owner ← Reading.value UInt16
    let nameAndType ← Reading.value UInt16
    return fieldRef owner nameAndType
  | .methodRef => do
    let owner ← Reading.value UInt16
    let nameAndType ← Reading.value UInt16
    return methodRef owner nameAndType
  | .interfaceMethodRef => do
    let owner ← Reading.value UInt16
    let nameAndType ← Reading.value UInt16
    return interfaceMethodRef owner nameAndType
  | .nameAndType => do
    let name ← Reading.value UInt16
    let descriptor ← Reading.value UInt16
    return nameAndType name descriptor
  | .methodHandle => do
    let byte ← Reading.value UInt8
    match ReferenceKind.ofByte byte with
    | .error invalid => .refuse (.invalidReferenceKind invalid)
    | .ok kind =>
      let target ← Reading.value UInt16
      return methodHandle kind target
  | .methodType => do
    let descriptor ← Reading.value UInt16
    return methodType descriptor
  | .dynamic => do
    let bootstrap ← Reading.value UInt16
    let nameAndType ← Reading.value UInt16
    return dynamic bootstrap nameAndType
  | .invokeDynamic => do
    let bootstrap ← Reading.value UInt16
    let nameAndType ← Reading.value UInt16
    return invokeDynamic bootstrap nameAndType
  | .moduleRef => do
    let name ← Reading.value UInt16
    return moduleRef name
  | .packageRef => do
    let name ← Reading.value UInt16
    return packageRef name

def reading : Reading Constant := do
  let tag ← Reading.value UInt8
  match ConstantKind.ofTag? tag with
  | none => .refuse (.unexpectedConstantPoolTag tag)
  | some kind => partsReading kind

def partsWriting : Constant → Writing
  | utf8 value => .length 2 value.toBytes.length ++ .bytes value.toBytes
  | integer value => .value value
  | float value => .value value
  | long value => .value value
  | double value => .value value
  | classRef index | stringRef index | methodType index | moduleRef index | packageRef index =>
    .value index
  | fieldRef first second | methodRef first second | interfaceMethodRef first second
  | nameAndType first second | dynamic first second | invokeDynamic first second =>
    .value first ++ .value second
  | methodHandle kind target => .value kind.toByte ++ .value target

def writing (c : Constant) : Writing := .value c.tag ++ c.partsWriting

end ClassFormat.Constant
