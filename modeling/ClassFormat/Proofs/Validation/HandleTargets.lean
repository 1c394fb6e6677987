import ClassFormat.Proofs.Validation.ReferenceGraph
import ClassFormat.Proofs.Validation.Reemission

/-!
What the method handles of a class file refer to once validation finds nothing: a member of a
permitted kind with a name, which is not forbidden to the handle if it is text. Main statement:
`handleTarget_of_validate`.
-/
namespace ClassFormat

namespace Pool

variable {v : Version} {p : Pool}

theorem Linked.memberName (linked : p.Linked v) {k : Constant} (first : k.Linked v p)
    (isMember : k.kind ∈ [ConstantKind.fieldRef, .methodRef, .interfaceMethodRef]) :
    ∃ s, p.MemberName s k := by
  have follow {nameType : PoolIndex} (held : p.Holds nameType .nameAndType) :
      ∃ s name descriptor, p.get nameType = .ok (.nameAndType name descriptor) ∧
        p.get name = .ok (.utf8 s) := by
    obtain ⟨c, found, same⟩ := held
    cases c with
    | nameAndType name descriptor =>
      obtain ⟨s, string⟩ := holds_utf8_iff.mp (linked _ _ found).1
      exact ⟨s, name, descriptor, found, string_eq_ok_iff.mp string⟩
    | _ => cases same
  cases k with
  | fieldRef owner nameType | methodRef owner nameType | interfaceMethodRef owner nameType =>
    exact follow first.2
  | _ => simp [Constant.kind] at isMember

end Pool

namespace ClassFile

/-- A handle that reads or writes a field refers to a field. One that creates an instance refers to
a method, which is a constructor if its name is text; what has a name without text goes unnoticed.
All others refer to methods of a permitted kind that are neither constructors nor class
initializers. -/
theorem handleTarget_of_validate {c : ClassFile} (clean : c.validate = []) {index : PoolIndex}
    {kind : ReferenceKind} {target : PoolIndex}
    (found : c.pool.get index = .ok (.methodHandle kind target)) :
    (kind.isFieldAccess = true → c.pool.Holds target .fieldRef) ∧
      (kind = .newInvokeSpecial → ∃ k s, c.pool.get target = .ok k ∧ k.kind = .methodRef ∧
        c.pool.MemberName s k ∧ (s = .text Method.constructorName ∨ ∃ bytes, s = .raw bytes)) ∧
      (kind.isFieldAccess = false → kind ≠ .newInvokeSpecial → ∃ k s, c.pool.get target = .ok k ∧
        k.kind ∈ Rules.permittedReferents kind c.version ∧ c.pool.MemberName s k ∧
        s ≠ .text Method.constructorName ∧ s ≠ .text Method.classInitializerName) := by
  have linked := linked_of_validate clean
  obtain ⟨k, found', permitted, calls⟩ : kind.MayReferTo c.version c.pool target :=
    linked index _ found
  obtain ⟨s, named⟩ := linked.memberName (linked target k found')
    (Rules.isMember_of_permitted permitted)
  have mayCall (method : kind.isFieldAccess = false) (name : String) (text : s = .text name) :
      kind.MayCall name :=
    calls method name (Pool.refersTo_iff.mpr (text ▸ named))
  refine ⟨?_, ?_, ?_⟩
  · intro field
    exact ⟨k, found', Rules.eq_fieldRef_of_permitted field permitted⟩
  · rintro rfl
    refine ⟨k, s, found', Rules.eq_methodRef_of_permitted permitted, named, ?_⟩
    cases s with
    | text name =>
      have constructor : name = Method.constructorName := mayCall rfl name rfl
      exact .inl (congrArg JavaString.text constructor)
    | raw bytes => exact .inr ⟨bytes, rfl⟩
  · intro method other
    have allowed (name : String) (text : s = .text name) :
        name ≠ Method.constructorName ∧ name ≠ Method.classInitializerName := by
      have calls := mayCall method name text
      rwa [ReferenceKind.MayCall, if_neg other] at calls
    refine ⟨k, s, found', permitted, named, ?_, ?_⟩
    · intro text
      exact (allowed _ text).1 rfl
    · intro text
      exact (allowed _ text).2 rfl

/-- The root of all classes with a handle on one of its methods. -/
def holding (kind : ReferenceKind) (name : JavaString) : ClassFile where
  version := .jdk 8
  pool := .ofConstants [.utf8 (.text objectName), .classRef 1, .utf8 name, .utf8 (.text "()V"),
    .nameAndType 3 4, .methodRef 2 5, .methodHandle kind 6]
  flags := ClassFlags.accPublic ∪ ClassFlags.accSuper
  thisClass := 2
  superClass := 0
  interfaces := []
  fields := []
  methods := []
  attributes := []

theorem handleTarget_holding :
    (∃ k s, (holding .newInvokeSpecial (.text "<init>")).pool.get 6 = .ok k ∧
      k.kind = .methodRef ∧ (holding .newInvokeSpecial (.text "<init>")).pool.MemberName s k ∧
      (s = .text Method.constructorName ∨ ∃ bytes, s = .raw bytes)) ∧
    ∃ k s, (holding .invokeStatic (.text "run")).pool.get 6 = .ok k ∧
      k.kind ∈ Rules.permittedReferents .invokeStatic (.jdk 8) ∧
      (holding .invokeStatic (.text "run")).pool.MemberName s k ∧
      s ≠ .text Method.constructorName ∧ s ≠ .text Method.classInitializerName := by
  have clean : (holding .newInvokeSpecial (.text "<init>")).validate = [] := rfl
  have creates : (holding .newInvokeSpecial (.text "<init>")).pool.get 7 =
      .ok (.methodHandle .newInvokeSpecial 6) := rfl
  have clean' : (holding .invokeStatic (.text "run")).validate = [] := rfl
  have calls : (holding .invokeStatic (.text "run")).pool.get 7 =
      .ok (.methodHandle .invokeStatic 6) := rfl
  exact ⟨(handleTarget_of_validate clean creates).2.1 rfl,
    (handleTarget_of_validate clean' calls).2.2 rfl (by decide)⟩

/-- A handle that creates an instance by a method whose name is no text is not noticed. -/
theorem validate_holding_raw :
    (holding .newInvokeSpecial (.raw [0xFF])).pool.Reachable ∧
      (holding .newInvokeSpecial (.raw [0xFF])).validate = [] ∧
      (holding .newInvokeSpecial (.raw [0xFF])).pool.get 7 =
        .ok (.methodHandle .newInvokeSpecial 6) ∧
      ¬∃ k, (holding .newInvokeSpecial (.raw [0xFF])).pool.get 6 = .ok k ∧
        (holding .newInvokeSpecial (.raw [0xFF])).pool.RefersTo Method.constructorName k := by
  have built : (holding .newInvokeSpecial (.raw [0xFF])).pool.Reachable :=
    Pool.reachable_iff_wellFormed.mpr (Pool.wellFormed_iff.mpr ⟨_, rfl, Nat.le_of_ble_eq_true rfl⟩)
  refine ⟨built, rfl, rfl, ?_⟩
  rintro ⟨k, found, refers⟩
  have method : (holding .newInvokeSpecial (.raw [0xFF])).pool.get 6 = .ok (.methodRef 2 5) := rfl
  cases method.symm.trans found
  obtain ⟨name, descriptor, pair, text⟩ := refers
  have pair' : (holding .newInvokeSpecial (.raw [0xFF])).pool.get 5 = .ok (.nameAndType 3 4) := rfl
  cases pair'.symm.trans pair
  have raw : (holding .newInvokeSpecial (.raw [0xFF])).pool.get 3 = .ok (.utf8 (.raw [0xFF])) := rfl
  cases raw.symm.trans text

end ClassFile

end ClassFormat
