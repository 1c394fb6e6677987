import ClassFormat.Constant.Basic

/-!
References by index and the kind of constant each of them requires.
-/
namespace ClassFormat

inductive ReferenceRole where
  | name | descriptor | owner | nameAndType | string | target | thisClass | superClass | interface
  deriving DecidableEq, Repr

def ReferenceRole.text : ReferenceRole → String
  | name => "name"
  | descriptor => "descriptor"
  | owner => "class"
  | nameAndType => "name and type"
  | string => "string"
  | target => "reference"
  | thisClass => "this class"
  | superClass => "super class"
  | interface => "interface"

structure Reference where
  role : ReferenceRole
  index : PoolIndex
  expected : ConstantKind
  deriving DecidableEq, Repr

/-- The references of a constant that require one kind each. The target of a method handle is not
among them, since the kinds it may have depend on the version. -/
def Constant.references : Constant → List Reference
  | classRef name | moduleRef name | packageRef name => [⟨.name, name, .utf8⟩]
  | stringRef value => [⟨.string, value, .utf8⟩]
  | fieldRef owner nameType | methodRef owner nameType | interfaceMethodRef owner nameType =>
    [⟨.owner, owner, .classRef⟩, ⟨.nameAndType, nameType, .nameAndType⟩]
  | nameAndType name descriptor => [⟨.name, name, .utf8⟩, ⟨.descriptor, descriptor, .utf8⟩]
  | methodType descriptor => [⟨.descriptor, descriptor, .utf8⟩]
  | dynamic _ nameType | invokeDynamic _ nameType => [⟨.nameAndType, nameType, .nameAndType⟩]
  | utf8 _ | integer _ | float _ | long _ | double _ | methodHandle _ _ => []

end ClassFormat
