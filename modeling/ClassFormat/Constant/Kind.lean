/-!
The kinds of constants and their tags.
-/
namespace ClassFormat

inductive ConstantKind where
  | utf8 | integer | float | long | double | classRef | stringRef | fieldRef | methodRef
  | interfaceMethodRef | nameAndType | methodHandle | methodType | dynamic | invokeDynamic
  | moduleRef | packageRef
  deriving DecidableEq, Repr

namespace ConstantKind

def all : List ConstantKind :=
  [utf8, integer, float, long, double, classRef, stringRef, fieldRef, methodRef, interfaceMethodRef,
    nameAndType, methodHandle, methodType, dynamic, invokeDynamic, moduleRef, packageRef]

def tag : ConstantKind → UInt8
  | utf8 => 1
  | integer => 3
  | float => 4
  | long => 5
  | double => 6
  | classRef => 7
  | stringRef => 8
  | fieldRef => 9
  | methodRef => 10
  | interfaceMethodRef => 11
  | nameAndType => 12
  | methodHandle => 15
  | methodType => 16
  | dynamic => 17
  | invokeDynamic => 18
  | moduleRef => 19
  | packageRef => 20

def ofTag? (tag : UInt8) : Option ConstantKind := all.find? (·.tag == tag)

def isWide : ConstantKind → Bool
  | long | double => true
  | _ => false

def text : ConstantKind → String
  | utf8 => "CONSTANT_Utf8"
  | integer => "CONSTANT_Integer"
  | float => "CONSTANT_Float"
  | long => "CONSTANT_Long"
  | double => "CONSTANT_Double"
  | classRef => "CONSTANT_Class"
  | stringRef => "CONSTANT_String"
  | fieldRef => "CONSTANT_Fieldref"
  | methodRef => "CONSTANT_Methodref"
  | interfaceMethodRef => "CONSTANT_InterfaceMethodref"
  | nameAndType => "CONSTANT_NameAndType"
  | methodHandle => "CONSTANT_MethodHandle"
  | methodType => "CONSTANT_MethodType"
  | dynamic => "CONSTANT_Dynamic"
  | invokeDynamic => "CONSTANT_InvokeDynamic"
  | moduleRef => "CONSTANT_Module"
  | packageRef => "CONSTANT_Package"

end ConstantKind

end ClassFormat
