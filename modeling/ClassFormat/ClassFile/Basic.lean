import ClassFormat.Member
import ClassFormat.Version

/-!
A class file as a whole.
-/
namespace ClassFormat

structure ClassFile where
  version : Version
  pool : Pool
  flags : ClassFlags
  thisClass : PoolIndex
  /-- The index of the direct super class, or 0 where there is none. -/
  superClass : PoolIndex
  interfaces : List PoolIndex
  fields : List Field
  methods : List Method
  attributes : List Attribute
  deriving DecidableEq, Repr

namespace ClassFile

def objectName : String := "java/lang/Object"

def isInterface (c : ClassFile) : Bool := c.flags.contains ClassFlags.accInterface

def isModule (c : ClassFile) : Bool := c.flags.contains ClassFlags.accModule

def thisClassName (c : ClassFile) : Except PoolError JavaString := c.pool.className c.thisClass

def superClassName (c : ClassFile) : Except PoolError (Option JavaString) :=
  if c.superClass = 0 then .ok none
  else match c.pool.className c.superClass with
    | .ok name => .ok (some name)
    | .error e => .error e

def valueEq (c d : ClassFile) : Bool :=
  c.pool.valueEq d.pool && { c with pool := d.pool } == d

end ClassFile

end ClassFormat
