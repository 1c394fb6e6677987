/-!
What a method handle does with the member it refers to.
-/
namespace ClassFormat

inductive ReferenceKind where
  | getField | getStatic | putField | putStatic
  | invokeVirtual | invokeStatic | invokeSpecial | newInvokeSpecial | invokeInterface
  deriving DecidableEq, Repr

structure InvalidReferenceKind where
  byte : UInt8
  deriving DecidableEq, Repr

def InvalidReferenceKind.message (invalid : InvalidReferenceKind) : String :=
  s!"Invalid method handle reference kind {invalid.byte.toNat}"

namespace ReferenceKind

/-- All reference kinds in the order of their bytes, which start at 1. -/
def all : List ReferenceKind :=
  [getField, getStatic, putField, putStatic, invokeVirtual, invokeStatic, invokeSpecial,
    newInvokeSpecial, invokeInterface]

def toByte : ReferenceKind → UInt8
  | getField => 1
  | getStatic => 2
  | putField => 3
  | putStatic => 4
  | invokeVirtual => 5
  | invokeStatic => 6
  | invokeSpecial => 7
  | newInvokeSpecial => 8
  | invokeInterface => 9

def ofByte (byte : UInt8) : Except InvalidReferenceKind ReferenceKind :=
  match all.find? (·.toByte == byte) with
  | some kind => .ok kind
  | none => .error ⟨byte⟩

def isFieldAccess : ReferenceKind → Bool
  | getField | getStatic | putField | putStatic => true
  | _ => false

def text : ReferenceKind → String
  | getField => "REF_getField"
  | getStatic => "REF_getStatic"
  | putField => "REF_putField"
  | putStatic => "REF_putStatic"
  | invokeVirtual => "REF_invokeVirtual"
  | invokeStatic => "REF_invokeStatic"
  | invokeSpecial => "REF_invokeSpecial"
  | newInvokeSpecial => "REF_newInvokeSpecial"
  | invokeInterface => "REF_invokeInterface"

end ReferenceKind

end ClassFormat
