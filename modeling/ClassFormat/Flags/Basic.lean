import ClassFormat.Text.Hex

/-!
Access flags of class files, fields and methods. A set holds all 16 bits, also those without a name.
-/
namespace ClassFormat

inductive FlagOwner where
  | classFile | field | method
  deriving DecidableEq, Repr

structure Flags (owner : FlagOwner) where
  bits : UInt16
  deriving DecidableEq, Repr

abbrev ClassFlags := Flags .classFile
abbrev FieldFlags := Flags .field
abbrev MethodFlags := Flags .method

namespace ClassFlags

def accPublic : ClassFlags := ⟨0x0001⟩
def accFinal : ClassFlags := ⟨0x0010⟩
def accSuper : ClassFlags := ⟨0x0020⟩
def accInterface : ClassFlags := ⟨0x0200⟩
def accAbstract : ClassFlags := ⟨0x0400⟩
def accSynthetic : ClassFlags := ⟨0x1000⟩
def accAnnotation : ClassFlags := ⟨0x2000⟩
def accEnum : ClassFlags := ⟨0x4000⟩
def accModule : ClassFlags := ⟨0x8000⟩

end ClassFlags

namespace FieldFlags

def accPublic : FieldFlags := ⟨0x0001⟩
def accPrivate : FieldFlags := ⟨0x0002⟩
def accProtected : FieldFlags := ⟨0x0004⟩
def accStatic : FieldFlags := ⟨0x0008⟩
def accFinal : FieldFlags := ⟨0x0010⟩
def accVolatile : FieldFlags := ⟨0x0040⟩
def accTransient : FieldFlags := ⟨0x0080⟩
def accSynthetic : FieldFlags := ⟨0x1000⟩
def accEnum : FieldFlags := ⟨0x4000⟩

end FieldFlags

namespace MethodFlags

def accPublic : MethodFlags := ⟨0x0001⟩
def accPrivate : MethodFlags := ⟨0x0002⟩
def accProtected : MethodFlags := ⟨0x0004⟩
def accStatic : MethodFlags := ⟨0x0008⟩
def accFinal : MethodFlags := ⟨0x0010⟩
def accSynchronized : MethodFlags := ⟨0x0020⟩
def accBridge : MethodFlags := ⟨0x0040⟩
def accVarargs : MethodFlags := ⟨0x0080⟩
def accNative : MethodFlags := ⟨0x0100⟩
def accAbstract : MethodFlags := ⟨0x0400⟩
def accStrict : MethodFlags := ⟨0x0800⟩
def accSynthetic : MethodFlags := ⟨0x1000⟩

end MethodFlags

def FlagOwner.named : (o : FlagOwner) → List (String × Flags o)
  | .classFile =>
    [("PUBLIC", ClassFlags.accPublic), ("FINAL", ClassFlags.accFinal),
      ("SUPER", ClassFlags.accSuper), ("INTERFACE", ClassFlags.accInterface),
      ("ABSTRACT", ClassFlags.accAbstract), ("SYNTHETIC", ClassFlags.accSynthetic),
      ("ANNOTATION", ClassFlags.accAnnotation), ("ENUM", ClassFlags.accEnum),
      ("MODULE", ClassFlags.accModule)]
  | .field =>
    [("PUBLIC", FieldFlags.accPublic), ("PRIVATE", FieldFlags.accPrivate),
      ("PROTECTED", FieldFlags.accProtected), ("STATIC", FieldFlags.accStatic),
      ("FINAL", FieldFlags.accFinal), ("VOLATILE", FieldFlags.accVolatile),
      ("TRANSIENT", FieldFlags.accTransient), ("SYNTHETIC", FieldFlags.accSynthetic),
      ("ENUM", FieldFlags.accEnum)]
  | .method =>
    [("PUBLIC", MethodFlags.accPublic), ("PRIVATE", MethodFlags.accPrivate),
      ("PROTECTED", MethodFlags.accProtected), ("STATIC", MethodFlags.accStatic),
      ("FINAL", MethodFlags.accFinal), ("SYNCHRONIZED", MethodFlags.accSynchronized),
      ("BRIDGE", MethodFlags.accBridge), ("VARARGS", MethodFlags.accVarargs),
      ("NATIVE", MethodFlags.accNative), ("ABSTRACT", MethodFlags.accAbstract),
      ("STRICT", MethodFlags.accStrict), ("SYNTHETIC", MethodFlags.accSynthetic)]

def FlagOwner.flagsName : FlagOwner → String
  | .classFile => "ClassAccessFlags"
  | .field => "FieldAccessFlags"
  | .method => "MethodAccessFlags"

namespace Flags

variable {o : FlagOwner}

instance : EmptyCollection (Flags o) := ⟨⟨0⟩⟩
instance : Inter (Flags o) := ⟨fun a b => ⟨a.bits &&& b.bits⟩⟩
instance : Union (Flags o) := ⟨fun a b => ⟨a.bits ||| b.bits⟩⟩
instance : SDiff (Flags o) := ⟨fun a b => ⟨a.bits &&& ~~~b.bits⟩⟩

def isEmpty (a : Flags o) : Bool := a.bits == 0

def contains (a b : Flags o) : Bool := a ∩ b == b

def size (a : Flags o) : Nat := (List.range 16).countP a.bits.toNat.testBit

def known : Flags o := o.named.foldl (fun all flag => all ∪ flag.2) ∅

/-- The named flags that are not in a set. -/
def complement (a : Flags o) : Flags o := known \ a

def names (a : Flags o) : List String :=
  (o.named.filter fun flag => a.contains flag.2).map (·.1)

/-- The bits without a name come last, as one number. -/
def text (a : Flags o) : String :=
  let other := a \ known
  " | ".intercalate (a.names ++ if other.isEmpty then [] else ["0x" ++ Hex.lower other.bits.toNat])

/-- The empty set is written as a number. -/
def described (a : Flags o) : String :=
  o.flagsName ++ "(" ++ (if a.isEmpty then "0x0" else a.text) ++ ")"

end Flags

structure AccessFlagSet where
  owner : FlagOwner
  flags : Flags owner
  deriving DecidableEq, Repr

def AccessFlagSet.text (s : AccessFlagSet) : String := s.flags.text

end ClassFormat
