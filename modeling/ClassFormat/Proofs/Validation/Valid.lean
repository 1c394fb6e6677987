import ClassFormat.ClassFile.Basic
import ClassFormat.Proofs.Flags.Sets
import ClassFormat.Rules.Availability
import ClassFormat.Rules.MethodName
import ClassFormat.Rules.Window

/-!
What the rules say about a class file, apart from how they are checked: `ClassFile.Valid`.
-/
namespace ClassFormat

namespace Pool

def Holds (p : Pool) (index : PoolIndex) (kind : ConstantKind) : Prop :=
  ∃ c, p.get index = .ok c ∧ c.kind = kind

def HasText (p : Pool) (index : PoolIndex) (value : String) : Prop :=
  p.get index = .ok (.utf8 (.text value))

def HasClass (p : Pool) (index : PoolIndex) (value : String) : Prop :=
  ∃ name, p.get index = .ok (.classRef name) ∧ p.HasText name value

def RefersTo (p : Pool) (value : String) : Constant → Prop
  | .fieldRef _ nameType | .methodRef _ nameType | .interfaceMethodRef _ nameType =>
    ∃ name descriptor, p.get nameType = .ok (.nameAndType name descriptor) ∧ p.HasText name value
  | _ => False

end Pool

/-- Handles that create an instance call constructors, and all other ones call neither those nor
class initializers. -/
def ReferenceKind.MayCall (kind : ReferenceKind) (name : String) : Prop :=
  if kind = .newInvokeSpecial then name = Method.constructorName
  else name ≠ Method.constructorName ∧ name ≠ Method.classInitializerName

/-- What a method handle refers to is there, of a permitted kind, and if it is a method whose name
is text, one that it may call. -/
def ReferenceKind.MayReferTo (kind : ReferenceKind) (v : Version) (p : Pool) (target : PoolIndex) :
    Prop :=
  ∃ c, p.get target = .ok c ∧ c.kind ∈ Rules.permittedReferents kind v ∧
    (kind.isFieldAccess = false → ∀ name, p.RefersTo name c → kind.MayCall name)

def Constant.Linked (v : Version) (p : Pool) : Constant → Prop
  | utf8 _ | integer _ | float _ | long _ | double _ => True
  | classRef name | moduleRef name | packageRef name => p.Holds name .utf8
  | stringRef value => p.Holds value .utf8
  | fieldRef owner nameType | methodRef owner nameType | interfaceMethodRef owner nameType =>
    p.Holds owner .classRef ∧ p.Holds nameType .nameAndType
  | nameAndType name descriptor => p.Holds name .utf8 ∧ p.Holds descriptor .utf8
  | methodHandle kind target => kind.MayReferTo v p target
  | methodType descriptor => p.Holds descriptor .utf8
  | dynamic _ nameType | invokeDynamic _ nameType => p.Holds nameType .nameAndType

namespace Flags

variable {o : FlagOwner}

/-- The rules for flags that look at the version alone. -/
structure Admitted (v : Version) (flags : Flags o) : Prop where
  in_window : ∀ flag window, (flag, window) ∈ Rules.flagWindows o → flag ⊆ flags →
    window.contains v = true
  at_most_one : ∀ exclusive ∈ Rules.exclusiveSets o v, ∀ i : Nat, i ∈ flags → i ∈ exclusive →
    ∀ j : Nat, j ∈ flags → j ∈ exclusive → i = j

/-- The rules for flags in a class with other flags of its own. -/
structure Suits (v : Version) (flags : Flags o) (classFlags : ClassFlags) : Prop where
  none_excluded : ∀ kind ∈ Rules.classKinds, kind ⊆ classFlags →
    ∀ i : Nat, i ∈ flags → i ∉ Rules.excludedBy kind o
  some_alternative : ∀ kind ∈ Rules.classKinds, kind ⊆ classFlags → Rules.requiredBy kind v o ≠ [] →
    ∃ alternative ∈ Rules.requiredBy kind v o, alternative ⊆ flags

/-- The rules for the flags of a method of a name. Bits without a meaning are not judged. -/
structure SuitName (v : Version) (name : String) (flags : MethodFlags) : Prop where
  required : Rules.requiredByName name v ⊆ flags
  permitted : ∀ i : Nat, i ∈ flags → i ∈ (known : MethodFlags) → i ∈ Rules.permittedByName name

end Flags

structure Field.Valid (c : ClassFile) (f : Field) : Prop where
  name : c.pool.Holds f.name .utf8
  descriptor : c.pool.Holds f.descriptor .utf8
  admitted : f.flags.Admitted c.version
  suits : f.flags.Suits c.version c.flags

structure Method.Valid (c : ClassFile) (m : Method) : Prop where
  name : c.pool.Holds m.name .utf8
  descriptor : c.pool.Holds m.descriptor .utf8
  admitted : m.flags.Admitted c.version
  /-- Class initializers are exempt from the rules for members of the class. -/
  suits : ¬c.pool.HasText m.name classInitializerName → m.flags.Suits c.version c.flags
  suitName : ∀ name, c.pool.HasText m.name name → m.flags.SuitName c.version name

namespace ClassFile

structure Valid (c : ClassFile) : Prop where
  version : c.version.isSupported = true
  available : ∀ index k, c.pool.get index = .ok k → Rules.minimumVersion k.kind ≤ c.version
  linked : ∀ index k, c.pool.get index = .ok k → k.Linked c.version c.pool
  thisClass : c.pool.Holds c.thisClass .classRef
  /-- Only modules and the root of all classes have no super class. -/
  superClass : c.pool.Holds c.superClass .classRef ∨
    c.superClass = 0 ∧ (c.pool.HasClass c.thisClass objectName ∨ ClassFlags.accModule ⊆ c.flags)
  interfaces : ∀ index ∈ c.interfaces, c.pool.Holds index .classRef
  admitted : c.flags.Admitted c.version
  suits : c.flags.Suits c.version c.flags
  fields : ∀ f ∈ c.fields, f.Valid c
  methods : ∀ m ∈ c.methods, m.Valid c

end ClassFile

end ClassFormat
