import ClassFormat.Flags.Basic
import ClassFormat.Rules.Layer

/-!
Which access flags exclude each other, and what the kind of a class excludes and requires.
-/
namespace ClassFormat.Rules

def accessModifiers : MethodFlags :=
  MethodFlags.accPublic ∪ MethodFlags.accPrivate ∪ MethodFlags.accProtected

/-- Sets of flags of which at most one may be set, by the version from which on they hold. -/
def exclusiveLayers : (o : FlagOwner) → List (Version × Flags o)
  | .classFile => [(.origin, ClassFlags.accFinal ∪ ClassFlags.accAbstract)]
  | .field =>
    [(.origin, FieldFlags.accPublic ∪ FieldFlags.accPrivate ∪ FieldFlags.accProtected),
      (.origin, FieldFlags.accFinal ∪ FieldFlags.accVolatile)]
  | .method =>
    [(.origin, accessModifiers),
      (.origin, MethodFlags.accAbstract ∪ MethodFlags.accPrivate),
      (.origin, MethodFlags.accAbstract ∪ MethodFlags.accStatic),
      (.origin, MethodFlags.accAbstract ∪ MethodFlags.accFinal),
      (.origin, MethodFlags.accAbstract ∪ MethodFlags.accSynchronized),
      (.origin, MethodFlags.accAbstract ∪ MethodFlags.accNative),
      (.origin, MethodFlags.accAbstract ∪ MethodFlags.accStrict)]

def exclusiveSets (o : FlagOwner) (v : Version) : List (Flags o) := begun (exclusiveLayers o) v

def classKinds : List ClassFlags :=
  [ClassFlags.accInterface, ClassFlags.accAnnotation, ClassFlags.accModule]

def excludedBy (kind : ClassFlags) : (o : FlagOwner) → Flags o
  | .classFile =>
    if kind = ClassFlags.accInterface then
      ClassFlags.accFinal ∪ ClassFlags.accSuper ∪ ClassFlags.accEnum ∪ ClassFlags.accModule
    else if kind = ClassFlags.accModule then Flags.known \ ClassFlags.accModule
    else ∅
  | .field =>
    if kind = ClassFlags.accInterface then
      FieldFlags.accPrivate ∪ FieldFlags.accProtected ∪ FieldFlags.accVolatile ∪
        FieldFlags.accTransient ∪ FieldFlags.accEnum
    else ∅
  | .method =>
    if kind = ClassFlags.accInterface then
      MethodFlags.accProtected ∪ MethodFlags.accFinal ∪ MethodFlags.accSynchronized ∪
        MethodFlags.accNative
    else ∅

def interfaceMethodLayers : List (Version × List MethodFlags) :=
  [(.origin, [MethodFlags.accAbstract ∪ MethodFlags.accPublic]),
    (.jdk 8, [MethodFlags.accPublic, MethodFlags.accPrivate])]

/-- The alternatives of which one must be set as a whole in a class of the kind; where there are
none, nothing is required. -/
def requiredBy (kind : ClassFlags) (v : Version) : (o : FlagOwner) → List (Flags o)
  | .classFile =>
    if kind = ClassFlags.accInterface then [ClassFlags.accAbstract]
    else if kind = ClassFlags.accAnnotation then [ClassFlags.accInterface]
    else []
  | .field =>
    if kind = ClassFlags.accInterface then
      [FieldFlags.accPublic ∪ FieldFlags.accStatic ∪ FieldFlags.accFinal]
    else []
  | .method =>
    if kind = ClassFlags.accInterface then (latest? interfaceMethodLayers v).getD [] else []

end ClassFormat.Rules
