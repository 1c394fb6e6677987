import ClassFormat.Bytes.Binary
import ClassFormat.Constant.Kind
import ClassFormat.Constant.ReferenceKind
import ClassFormat.Text.JavaString

/-!
Constants: values, and references by index to other constants of the pool.
-/
namespace ClassFormat

abbrev PoolIndex := UInt16

inductive Constant where
  | utf8 (value : JavaString)
  | integer (value : Int32)
  | float (value : Binary32)
  | long (value : Int64)
  | double (value : Binary64)
  | classRef (name : PoolIndex)
  | stringRef (value : PoolIndex)
  | fieldRef (owner nameAndType : PoolIndex)
  | methodRef (owner nameAndType : PoolIndex)
  | interfaceMethodRef (owner nameAndType : PoolIndex)
  | nameAndType (name descriptor : PoolIndex)
  | methodHandle (kind : ReferenceKind) (target : PoolIndex)
  | methodType (descriptor : PoolIndex)
  /-- A computed constant; `bootstrap` is a position in the table of bootstrap methods. -/
  | dynamic (bootstrap : UInt16) (nameAndType : PoolIndex)
  | invokeDynamic (bootstrap : UInt16) (nameAndType : PoolIndex)
  | moduleRef (name : PoolIndex)
  | packageRef (name : PoolIndex)
  deriving DecidableEq, Repr

namespace Constant

def kind : Constant → ConstantKind
  | utf8 _ => .utf8
  | integer _ => .integer
  | float _ => .float
  | long _ => .long
  | double _ => .double
  | classRef _ => .classRef
  | stringRef _ => .stringRef
  | fieldRef _ _ => .fieldRef
  | methodRef _ _ => .methodRef
  | interfaceMethodRef _ _ => .interfaceMethodRef
  | nameAndType _ _ => .nameAndType
  | methodHandle _ _ => .methodHandle
  | methodType _ => .methodType
  | dynamic _ _ => .dynamic
  | invokeDynamic _ _ => .invokeDynamic
  | moduleRef _ => .moduleRef
  | packageRef _ => .packageRef

def tag (c : Constant) : UInt8 := c.kind.tag

def isWide (c : Constant) : Bool := c.kind.isWide

def width (c : Constant) : Nat := if c.isWide then 2 else 1

/-- Floats and doubles are compared as numbers, all else part by part. -/
def valueEq : Constant → Constant → Bool
  | float x, float y => x.ieeeEq y
  | double x, double y => x.ieeeEq y
  | a, b => a == b

end Constant

end ClassFormat
