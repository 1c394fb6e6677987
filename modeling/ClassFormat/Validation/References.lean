import ClassFormat.Rules.Availability
import ClassFormat.Member
import ClassFormat.Validation.Violation

/-!
The checks of references by index, those of method handles among them.
-/
namespace ClassFormat

def Pool.memberName? (p : Pool) : Constant → Option String
  | .fieldRef _ nameType | .methodRef _ nameType | .interfaceMethodRef _ nameType =>
    match p.get nameType with
    | .ok (.nameAndType name _) =>
      match p.string name with
      | .ok value => value.text?
      | .error _ => none
    | _ => none
  | _ => none

namespace Validation

def referenceBreaches (p : Pool) (references : List Reference) : List Breach :=
  references.filterMap fun r =>
    match p.resolve r.index r.expected with
    | .ok _ => none
    | .error e => some (.badReference r.role e)

def targetNameBreaches (kind : ReferenceKind) (name : String) : List Breach :=
  if kind = .newInvokeSpecial then
    if name = Method.constructorName then [] else [.constructorRequired name]
  else if name = Method.constructorName ∨ name = Method.classInitializerName then
    [.reservedTargetName kind name]
  else []

/-- The first thing that is wrong with the target of a method handle. A name that cannot be followed
is left to the entries it belongs to. -/
def handleBreaches (v : Version) (p : Pool) (kind : ReferenceKind) (target : PoolIndex) :
    List Breach :=
  match p.get target with
  | .error e => [.badReference .target e]
  | .ok c =>
    if c.kind ∉ Rules.permittedReferents kind v then [.referentKind kind c.kind]
    else if kind.isFieldAccess then []
    else match p.memberName? c with
      | none => []
      | some name => targetNameBreaches kind name

def constantBreaches (v : Version) (p : Pool) (c : Constant) : List Breach :=
  let since := Rules.minimumVersion c.kind
  (if v < since then [.constantKindUnavailable c.kind since] else []) ++
    match c with
    | .methodHandle kind target => handleBreaches v p kind target
    | _ => referenceBreaches p c.references

end Validation

end ClassFormat
