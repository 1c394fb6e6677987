import ClassFormat.Constant.Reference
import ClassFormat.Flags.Basic
import ClassFormat.Pool.Basic
import ClassFormat.Version

/-!
What may be wrong with a class file, and where.
-/
namespace ClassFormat

inductive Location where
  | classFile
  | poolEntry (index : PoolIndex)
  | field (position : Nat)
  | method (position : Nat)
  deriving DecidableEq, Repr

inductive Breach where
  | unsupportedClassVersion (version : Version)
  | constantKindUnavailable (kind : ConstantKind) (since : Version)
  | flagNotYetIntroduced (flag : AccessFlagSet) (since : Version)
  | flagRemoved (flag : AccessFlagSet) (removed : Version)
  | referentKind (kind : ReferenceKind) (found : ConstantKind)
  | reservedTargetName (kind : ReferenceKind) (name : String)
  | constructorRequired (name : String)
  | mutuallyExclusive (present : AccessFlagSet)
  | excludedByClassKind (kind : ClassFlags) (present : AccessFlagSet)
  | requiredByClassKind (kind : ClassFlags) (alternatives : List AccessFlagSet)
  | requiredByName (name : String) (missing : AccessFlagSet)
  | notPermittedByName (name : String) (present : AccessFlagSet)
  | badReference (role : ReferenceRole) (error : PoolError)
  deriving DecidableEq, Repr

structure Violation where
  location : Location
  breach : Breach
  deriving DecidableEq, Repr

def Location.text : Location → String
  | classFile => "class file"
  | poolEntry index => s!"constant pool entry #{index.toNat}"
  | field position => s!"field #{position}"
  | method position => s!"method #{position}"

def AccessFlagSet.alternativesText (alternatives : List AccessFlagSet) : String :=
  " or ".intercalate (alternatives.map fun set => s!"[{set.text}]")

def Breach.family : Breach → String
  | unsupportedClassVersion _ | constantKindUnavailable _ _ | flagNotYetIntroduced _ _
  | flagRemoved _ _ => "version constraint violated: "
  | referentKind _ _ | reservedTargetName _ _ | constructorRequired _ =>
    "reference kind restriction violated: "
  | mutuallyExclusive _ | excludedByClassKind _ _ | requiredByClassKind _ _ | requiredByName _ _
  | notPermittedByName _ _ => "access flag constraint violated: "
  | badReference _ _ => ""

def Breach.detail : Breach → String
  | unsupportedClassVersion version => s!"class file version {version.text} is not supported"
  | constantKindUnavailable kind since =>
    s!"{kind.text} requires class file version {since.text} or later"
  | flagNotYetIntroduced flag since =>
    s!"{flag.text} requires class file version {since.text} or later"
  | flagRemoved flag removed =>
    s!"{flag.text} is not allowed since class file version {removed.text}"
  | referentKind kind found => s!"{kind.text} cannot refer to {found.text}"
  | reservedTargetName kind name => s!"{kind.text} cannot refer to a method named {name}"
  | constructorRequired name => s!"REF_newInvokeSpecial must refer to <init>, found {name}"
  | mutuallyExclusive present => s!"at most one of {present.text} may be set"
  | excludedByClassKind kind present =>
    s!"{present.text} not allowed in a class with {kind.described}"
  | requiredByClassKind kind alternatives =>
    s!"a class with {kind.described} requires {AccessFlagSet.alternativesText alternatives}"
  | requiredByName name missing => s!"a method named {name} requires {missing.text}"
  | notPermittedByName name present => s!"a method named {name} cannot have {present.text}"
  | badReference role error => s!"bad {role.text} reference: {error.message}"

def Violation.text (v : Violation) : String :=
  v.location.text ++ ": " ++ v.breach.family ++ v.breach.detail

end ClassFormat
