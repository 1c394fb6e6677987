import ClassFormat.ClassFile.Basic
import ClassFormat.Validation.AccessFlags
import ClassFormat.Validation.References

/-!
Validation: the violations of all rules, in the order version, constants by index, header, fields,
methods.
-/
namespace ClassFormat

namespace Validation

structure Setting where
  version : Version
  pool : Pool
  flags : ClassFlags

def versionBreaches (v : Version) : List Breach :=
  if v.isSupported then [] else [.unsupportedClassVersion v]

/-- Whether a class file may do without a super class: a module, or the root of all classes. -/
def mayLackSuperClass (c : ClassFile) : Bool :=
  c.isModule || match c.thisClassName with
    | .ok name => name.isText ClassFile.objectName
    | .error _ => false

def headerReferences (c : ClassFile) : List Reference :=
  ⟨.thisClass, c.thisClass, .classRef⟩ ::
    (if c.superClass = 0 && mayLackSuperClass c then []
      else [⟨.superClass, c.superClass, .classRef⟩]) ++
    c.interfaces.map (⟨.interface, ·, .classRef⟩)

def headerBreaches (c : ClassFile) : List Breach :=
  referenceBreaches c.pool (headerReferences c) ++ tableBreaches c.version c.flags ++
    classKindsBreaches c.version c.flags c.flags

def memberReferences {o : FlagOwner} (m : Member o) : List Reference :=
  [⟨.name, m.name, .utf8⟩, ⟨.descriptor, m.descriptor, .utf8⟩]

def fieldBreaches (s : Setting) (f : Field) : List Breach :=
  referenceBreaches s.pool (memberReferences f) ++ tableBreaches s.version f.flags ++
    classKindsBreaches s.version s.flags f.flags

def methodName? (p : Pool) (m : Method) : Option String :=
  match m.nameIn p with
  | .ok name => name.text?
  | .error _ => none

def methodBreaches (s : Setting) (m : Method) : List Breach :=
  let name := methodName? s.pool m
  referenceBreaches s.pool (memberReferences m) ++ tableBreaches s.version m.flags ++
    (if name.any Rules.isExemptFromClassKind then []
      else classKindsBreaches s.version s.flags m.flags) ++
    match name with
    | some name => methodNameBreaches s.version name m.flags
    | none => []

def located (location : Location) (breaches : List Breach) : List Violation :=
  breaches.map (⟨location, ·⟩)

def entryViolations (v : Version) (p : Pool) : List Violation :=
  p.entries.flatMap fun (i, c) => located (.poolEntry i) (constantBreaches v p c)

end Validation

namespace ClassFile

open Validation

def setting (c : ClassFile) : Setting := ⟨c.version, c.pool, c.flags⟩

def validate (c : ClassFile) : List Violation :=
  located .classFile (versionBreaches c.version) ++
    entryViolations c.version c.pool ++
    located .classFile (headerBreaches c) ++
    c.fields.zipIdx.flatMap (fun (f, i) => located (.field i) (fieldBreaches c.setting f)) ++
    c.methods.zipIdx.flatMap (fun (m, i) => located (.method i) (methodBreaches c.setting m))

end ClassFile

end ClassFormat
