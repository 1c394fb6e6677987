import ClassFormat.Member
import ClassFormat.Rules.Combination

/-!
What the reserved method names require and permit.
-/
namespace ClassFormat.Rules

def requiredByName (name : String) (v : Version) : MethodFlags :=
  if name = Method.classInitializerName ∧ Version.jdk 7 ≤ v then MethodFlags.accStatic else ∅

def permittedByName (name : String) : MethodFlags :=
  if name = Method.constructorName then
    accessModifiers ∪ MethodFlags.accVarargs ∪ MethodFlags.accStrict ∪ MethodFlags.accSynthetic
  else Flags.known

def isExemptFromClassKind (name : String) : Bool := name == Method.classInitializerName

end ClassFormat.Rules
