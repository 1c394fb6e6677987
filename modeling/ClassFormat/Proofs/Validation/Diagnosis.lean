import ClassFormat.Proofs.Pool.History
import ClassFormat.Proofs.Validation.Reports
import ClassFormat.Proofs.Validation.Verdict

/-!
What is reported about a method handle. Its rules build on one another: only if there is a target of
a permitted kind can its name be followed, and only then can the name be judged. A handle therefore
has one diagnosis, the first rule that it breaks. Main statement: `handle_diagnosed`.
-/
namespace ClassFormat

namespace ReferenceKind

def fieldAccesses : List ReferenceKind := [getField, getStatic, putField, putStatic]

theorem isFieldAccess_iff {kind : ReferenceKind} :
    kind.isFieldAccess = true ↔ kind ∈ fieldAccesses := by
  cases kind <;> decide

/-- The target is a constant of a kind that the handle may refer to. -/
structure Admits (kind : ReferenceKind) (v : Version) (p : Pool) (target : PoolIndex)
    (k : Constant) : Prop where
  found : p.get target = .ok k
  permitted : k.kind ∈ Rules.permittedReferents kind v

/-- The handle invokes a method that it may refer to. -/
structure Invokes (kind : ReferenceKind) (v : Version) (p : Pool) (target : PoolIndex)
    (k : Constant) : Prop extends kind.Admits v p target k where
  method : kind ∉ fieldAccesses

end ReferenceKind

/-- What there is to say about a method handle. A field may have any name, and a name that cannot be
followed to a text is not judged. -/
inductive Diagnosis (v : Version) (p : Pool) (kind : ReferenceKind) (target : PoolIndex) :
    Option Breach → Prop where
  | missing (absent : ∀ k, p.get target ≠ .ok k) :
    Diagnosis v p kind target (some (.badReference .target (.invalidIndex target)))
  | forbidden {k : Constant} (found : p.get target = .ok k)
      (other : k.kind ∉ Rules.permittedReferents kind v) :
    Diagnosis v p kind target (some (.referentKind kind k.kind))
  | access {k : Constant} (admits : kind.Admits v p target k)
      (field : kind ∈ ReferenceKind.fieldAccesses) :
    Diagnosis v p kind target none
  | nameless {k : Constant} (invokes : kind.Invokes v p target k)
      (nowhere : ∀ name, ¬p.RefersTo name k) :
    Diagnosis v p kind target none
  | notConstructor {k : Constant} {name : String} (invokes : kind.Invokes v p target k)
      (named : p.RefersTo name k) (creates : kind = .newInvokeSpecial)
      (other : name ≠ Method.constructorName) :
    Diagnosis v p kind target (some (.constructorRequired name))
  | reserved {k : Constant} {name : String} (invokes : kind.Invokes v p target k)
      (named : p.RefersTo name k) (calls : kind ≠ .newInvokeSpecial)
      (special : name = Method.constructorName ∨ name = Method.classInitializerName) :
    Diagnosis v p kind target (some (.reservedTargetName kind name))
  | allowed {k : Constant} {name : String} (invokes : kind.Invokes v p target k)
      (named : p.RefersTo name k) (calls : kind.MayCall name) :
    Diagnosis v p kind target none

namespace Validation

variable {v : Version} {p : Pool} {kind : ReferenceKind} {target : PoolIndex}

theorem handleBreaches_of_admits {k : Constant} (admits : kind.Admits v p target k)
    (field : kind ∈ ReferenceKind.fieldAccesses) : handleBreaches v p kind target = [] := by
  simp [handleBreaches, admits.found, admits.permitted, ReferenceKind.isFieldAccess_iff.mpr field]

theorem handleBreaches_of_invokes {k : Constant} (invokes : kind.Invokes v p target k) :
    handleBreaches v p kind target = (p.memberName? k).elim [] (targetNameBreaches kind) := by
  have method : ¬kind.isFieldAccess = true := mt ReferenceKind.isFieldAccess_iff.mp invokes.method
  unfold handleBreaches
  simp only [invokes.found]
  rw [if_neg (not_not_intro invokes.permitted), if_neg method]
  cases p.memberName? k <;> rfl

theorem handleBreaches_of_named {k : Constant} {name : String}
    (invokes : kind.Invokes v p target k) (named : p.RefersTo name k) :
    handleBreaches v p kind target = targetNameBreaches kind name := by
  rw [handleBreaches_of_invokes invokes, Pool.memberName?_eq_some_iff.mpr named, Option.elim_some]

/-- A diagnosis is all that the check of the handle has to say. -/
theorem handleBreaches_of_diagnosis {diagnosis : Option Breach}
    (diagnosed : Diagnosis v p kind target diagnosis) :
    handleBreaches v p kind target = diagnosis.toList := by
  cases diagnosed with
  | missing absent => simp [handleBreaches, Pool.get_eq_error absent]
  | forbidden found other => simp [handleBreaches, found, other]
  | access admits field => exact handleBreaches_of_admits admits field
  | nameless invokes nowhere =>
    have unnamed : p.memberName? _ = none :=
      Option.eq_none_iff_forall_ne_some.mpr fun name found =>
        nowhere name (Pool.memberName?_eq_some_iff.mp found)
    rw [handleBreaches_of_invokes invokes, unnamed, Option.elim_none, Option.toList_none]
  | notConstructor invokes named creates other =>
    rw [handleBreaches_of_named invokes named, targetNameBreaches, if_pos creates, if_neg other]
    rfl
  | reserved invokes named calls special =>
    rw [handleBreaches_of_named invokes named, targetNameBreaches, if_neg calls, if_pos special]
    rfl
  | allowed invokes named calls =>
    rw [handleBreaches_of_named invokes named]
    exact targetNameBreaches_eq_nil_iff.mpr calls

/-- Every name that a handle leads to is judged. -/
theorem exists_diagnosis_of_named {k : Constant} {name : String}
    (invokes : kind.Invokes v p target k) (named : p.RefersTo name k) :
    ∃ diagnosis, Diagnosis v p kind target diagnosis := by
  by_cases may : kind.MayCall name
  · exact ⟨_, .allowed invokes named may⟩
  by_cases creates : kind = .newInvokeSpecial
  · rw [ReferenceKind.MayCall, if_pos creates] at may
    exact ⟨_, .notConstructor invokes named creates may⟩
  · rw [ReferenceKind.MayCall, if_neg creates, ← not_or, Decidable.not_not] at may
    exact ⟨_, .reserved invokes named creates may⟩

theorem exists_diagnosis (v : Version) (p : Pool) (kind : ReferenceKind) (target : PoolIndex) :
    ∃ diagnosis, Diagnosis v p kind target diagnosis := by
  by_cases absent : ∀ k, p.get target ≠ .ok k
  · exact ⟨_, .missing absent⟩
  obtain ⟨k, found⟩ : ∃ k, p.get target = .ok k := by simpa using absent
  by_cases permitted : k.kind ∈ Rules.permittedReferents kind v
  case neg => exact ⟨_, .forbidden found permitted⟩
  by_cases field : kind ∈ ReferenceKind.fieldAccesses
  · exact ⟨_, .access ⟨found, permitted⟩ field⟩
  have invokes : kind.Invokes v p target k := ⟨⟨found, permitted⟩, field⟩
  by_cases nowhere : ∀ name, ¬p.RefersTo name k
  · exact ⟨_, .nameless invokes nowhere⟩
  · obtain ⟨name, named⟩ : ∃ name, p.RefersTo name k := by simpa using nowhere
    exact exists_diagnosis_of_named invokes named

theorem toList_eq_toList_iff {α : Type} {a b : Option α} : a.toList = b.toList ↔ a = b := by
  cases a <;> cases b <;> simp

theorem diagnosis_iff {diagnosis : Option Breach} :
    Diagnosis v p kind target diagnosis ↔
      handleBreaches v p kind target = diagnosis.toList := by
  constructor
  · exact handleBreaches_of_diagnosis
  · intro reported
    obtain ⟨other, diagnosed⟩ := exists_diagnosis v p kind target
    have same : diagnosis.toList = other.toList :=
      reported.symm.trans (handleBreaches_of_diagnosis diagnosed)
    exact toList_eq_toList_iff.mp same ▸ diagnosed

end Validation

namespace ClassFile

open Validation

/-- Besides that it came too early, a method handle has exactly one diagnosis, which is reported at
its entry if it is a breach. -/
theorem handle_diagnosed {c : ClassFile} (built : c.pool.Reachable) {index : PoolIndex}
    {kind : ReferenceKind} {target : PoolIndex}
    (found : c.pool.get index = .ok (.methodHandle kind target)) :
    ∃ diagnosis, (∀ other, Diagnosis c.version c.pool kind target other ↔ other = diagnosis) ∧
      c.reportAt (.poolEntry index) =
        (if c.version < Rules.minimumVersion .methodHandle then
          [.constantKindUnavailable .methodHandle (Rules.minimumVersion .methodHandle)]
        else []) ++ diagnosis.toList := by
  obtain ⟨diagnosis, diagnosed⟩ := exists_diagnosis c.version c.pool kind target
  have reported := handleBreaches_of_diagnosis diagnosed
  refine ⟨diagnosis, fun other => ?_, ?_⟩
  · rw [diagnosis_iff, reported, toList_eq_toList_iff, eq_comm]
  · rw [reportAt_poolEntry built.wellFormed.size_le found, constantBreaches, reported]
    rfl

/-- A class that is older than method handles, with one that refers to itself. -/
def selfReferring : ClassFile where
  version := .jdk 6
  pool := .ofConstants [.utf8 (.text objectName), .classRef 1, .methodHandle .invokeStatic 3]
  flags := ClassFlags.accPublic ∪ ClassFlags.accSuper
  thisClass := 2
  superClass := 0
  interfaces := []
  fields := []
  methods := []
  attributes := []

theorem handle_diagnosed_selfReferring :
    selfReferring.pool.Reachable ∧
      selfReferring.pool.get 3 = .ok (.methodHandle .invokeStatic 3) ∧
      selfReferring.reportAt (.poolEntry 3) =
        [.constantKindUnavailable .methodHandle (.jdk 7),
          .referentKind .invokeStatic .methodHandle] := by
  have built : selfReferring.pool.Reachable := Pool.reachable_ofConstants (by decide)
  have found : selfReferring.pool.get 3 = .ok (.methodHandle .invokeStatic 3) := rfl
  obtain ⟨diagnosis, only, reported⟩ := handle_diagnosed built found
  have itself : Diagnosis selfReferring.version selfReferring.pool .invokeStatic 3
      (some (.referentKind .invokeStatic .methodHandle)) :=
    .forbidden found (by decide)
  rw [← (only _).mp itself] at reported
  exact ⟨built, found, reported⟩

end ClassFile

end ClassFormat
