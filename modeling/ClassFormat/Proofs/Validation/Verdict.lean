import ClassFormat.Proofs.Pool.WellFormed
import ClassFormat.Proofs.Rules.Thresholds
import ClassFormat.Proofs.Validation.Blocks
import ClassFormat.Proofs.Validation.Valid

/-!
A class file has no violations if and only if it is valid: each check finds nothing exactly where
its rule is kept.
-/
namespace ClassFormat

namespace Pool

theorem holds_iff {p : Pool} {index : PoolIndex} {kind : ConstantKind} :
    p.Holds index kind ↔ ∃ c, p.resolve index kind = .ok c := by
  rw [Holds, resolve]
  cases found : p.get index with
  | error e => simp
  | ok c =>
    by_cases same : c.kind = kind
    · simp [same]
    · simp [same]

theorem string_eq_ok_iff {p : Pool} {index : PoolIndex} {s : JavaString} :
    p.string index = .ok s ↔ p.get index = .ok (.utf8 s) := by
  rw [string]
  cases p.get index with
  | error e => simp
  | ok c => cases c <;> simp

theorem className_eq_ok_iff {p : Pool} {index : PoolIndex} {s : JavaString} :
    p.className index = .ok s ↔
      ∃ name, p.get index = .ok (.classRef name) ∧ p.string name = .ok s := by
  rw [className]
  cases p.get index with
  | error e => simp
  | ok c => cases c <;> simp

theorem hasText_iff {p : Pool} {index : PoolIndex} {value : String} :
    p.HasText index value ↔ ∃ s, p.string index = .ok s ∧ s.text? = some value := by
  simp only [string_eq_ok_iff]
  constructor
  · intro found
    exact ⟨.text value, found, rfl⟩
  · rintro ⟨s, found, text⟩
    cases s with
    | text other => cases text; exact found
    | raw bytes => cases text

instance (p : Pool) (index : PoolIndex) (value : String) : Decidable (p.HasText index value) :=
  decidable_of_iff ((p.string index).toOption.bind JavaString.text? = some value) (by
    rw [hasText_iff]
    cases p.string index with
    | error e => simp [Except.toOption]
    | ok s => simp [Except.toOption])

theorem memberName?_fieldRef {p : Pool} (owner : PoolIndex) {nameType : PoolIndex}
    {value : String} :
    p.memberName? (.fieldRef owner nameType) = some value ↔
      ∃ name descriptor, p.get nameType = .ok (.nameAndType name descriptor) ∧
        p.HasText name value := by
  rw [memberName?]
  split
  · rename_i name descriptor found
    rw [found]
    constructor
    · intro text
      split at text
      · rename_i s string
        exact ⟨name, descriptor, rfl, hasText_iff.mpr ⟨s, string, text⟩⟩
      · cases text
    · rintro ⟨_, _, same, text⟩
      cases same
      obtain ⟨s, string, text⟩ := hasText_iff.mp text
      rw [string]
      exact text
  · rename_i other
    constructor
    · intro text
      cases text
    · rintro ⟨name, descriptor, found, -⟩
      exact absurd found (other name descriptor)

theorem memberName?_eq_some_iff {p : Pool} {c : Constant} {value : String} :
    p.memberName? c = some value ↔ p.RefersTo value c := by
  cases c with
  | fieldRef owner nameType => exact memberName?_fieldRef owner
  | methodRef owner nameType => exact memberName?_fieldRef owner
  | interfaceMethodRef owner nameType => exact memberName?_fieldRef owner
  | _ => simp [memberName?, RefersTo]

end Pool

namespace Validation

variable {o : FlagOwner} {v : Version} {p : Pool}

theorem unless_eq_nil_iff {rule : Prop} [Decidable rule] {breach : Breach} :
    (if rule then [] else [breach]) = [] ↔ rule := by
  split
  · rename_i kept
    exact iff_of_true rfl kept
  · rename_i broken
    exact iff_of_false (List.cons_ne_nil _ _) broken

theorem when_eq_nil_iff {fault : Prop} [Decidable fault] {breach : Breach} :
    (if fault then [breach] else []) = [] ↔ ¬fault := by
  rw [← ite_not, unless_eq_nil_iff]

theorem referenceBreaches_eq_nil_iff {references : List Reference} :
    referenceBreaches p references = [] ↔ ∀ r ∈ references, p.Holds r.index r.expected := by
  rw [referenceBreaches, List.filterMap_eq_nil_iff]
  apply forall₂_congr
  intro r _
  rw [Pool.holds_iff]
  cases p.resolve r.index r.expected with
  | error e => simp
  | ok c => simp

theorem targetNameBreaches_eq_nil_iff {kind : ReferenceKind} {name : String} :
    targetNameBreaches kind name = [] ↔ kind.MayCall name := by
  rw [targetNameBreaches, ReferenceKind.MayCall]
  by_cases create : kind = .newInvokeSpecial
  · rw [if_pos create, if_pos create, unless_eq_nil_iff]
  · rw [if_neg create, if_neg create, when_eq_nil_iff, not_or]

theorem handleBreaches_eq_nil_iff {kind : ReferenceKind} {target : PoolIndex} :
    handleBreaches v p kind target = [] ↔ kind.MayReferTo v p target := by
  rw [handleBreaches, ReferenceKind.MayReferTo]
  cases found : p.get target with
  | error e => simp
  | ok c =>
    simp only [Except.ok.injEq, exists_eq_left']
    by_cases permitted : c.kind ∈ Rules.permittedReferents kind v
    · rw [if_neg (not_not_intro permitted)]
      simp only [permitted, true_and]
      by_cases field : kind.isFieldAccess = true
      · simp [field]
      · simp only [field, Bool.false_eq_true, if_false, forall_const,
          ← Pool.memberName?_eq_some_iff]
        cases p.memberName? c with
        | none => simp
        | some name => simp [targetNameBreaches_eq_nil_iff]
    · rw [if_pos permitted]
      simp [permitted]

theorem constantBreaches_eq_nil_iff {c : Constant} :
    constantBreaches v p c = [] ↔ Rules.minimumVersion c.kind ≤ v ∧ c.Linked v p := by
  unfold constantBreaches
  dsimp only
  rw [List.append_eq_nil_iff, when_eq_nil_iff, Version.not_lt]
  apply and_congr_right
  intro _
  cases c with
  | methodHandle kind target => exact handleBreaches_eq_nil_iff
  | _ => simp [referenceBreaches_eq_nil_iff, Constant.references, Constant.Linked]

theorem windowBreaches_eq_nil_iff {windows : List (Flags o × FlagWindow)} {flags : Flags o} :
    windowBreaches v windows flags = [] ↔
      ∀ flag window, (flag, window) ∈ windows → flag ⊆ flags → window.contains v = true := by
  rw [windowBreaches, List.filterMap_eq_nil_iff, Prod.forall]
  apply forall₂_congr
  intro flag window
  apply imp_congr_right
  intro _
  rw [← Flags.contains_iff, FlagWindow.contains, Bool.and_eq_true, decide_eq_true_iff,
    ← Version.not_lt]
  by_cases set : flags.contains flag = true
  · by_cases early : v < window.added
    · simp [set, early]
    · cases limit : window.removed with
      | none => simp [set, early, limit]
      | some removed => simp [set, early, limit, ← Version.not_le]
  · simp [set]

theorem exclusionBreaches_eq_nil_iff {sets : List (Flags o)} {flags : Flags o} :
    exclusionBreaches sets flags = [] ↔
      ∀ exclusive ∈ sets, ∀ i : Nat, i ∈ flags → i ∈ exclusive →
        ∀ j : Nat, j ∈ flags → j ∈ exclusive → i = j := by
  rw [exclusionBreaches, List.filterMap_eq_nil_iff]
  apply forall₂_congr
  intro exclusive _
  have single : (flags ∩ exclusive).size ≤ 1 ↔ ∀ i : Nat, i ∈ flags → i ∈ exclusive →
      ∀ j : Nat, j ∈ flags → j ∈ exclusive → i = j := by
    simp only [Flags.size_le_one_iff, Flags.mem_inter, and_imp]
  rw [← single]
  by_cases many : 1 < (flags ∩ exclusive).size
  · simp [many]
  · simp [many, Nat.not_lt.mp many]

theorem tableBreaches_eq_nil_iff {flags : Flags o} :
    tableBreaches v flags = [] ↔ flags.Admitted v := by
  rw [tableBreaches, List.append_eq_nil_iff, windowBreaches_eq_nil_iff,
    exclusionBreaches_eq_nil_iff]
  exact ⟨fun ⟨windows, sets⟩ => ⟨windows, sets⟩, fun h => ⟨h.in_window, h.at_most_one⟩⟩

theorem classKindBreaches_eq_nil_iff {kind : ClassFlags} {excluded : Flags o}
    {alternatives : List (Flags o)} {flags : Flags o} :
    classKindBreaches kind excluded alternatives flags = [] ↔
      (∀ i : Nat, i ∈ flags → i ∉ excluded) ∧
        (alternatives ≠ [] → ∃ alternative ∈ alternatives, alternative ⊆ flags) := by
  rw [classKindBreaches, List.append_eq_nil_iff, unless_eq_nil_iff, unless_eq_nil_iff,
    Flags.isEmpty_inter_iff]
  apply and_congr_right
  intro _
  simp only [← Flags.contains_iff]
  cases alternatives with
  | nil => simp
  | cons first rest =>
    rw [List.isEmpty_cons, Bool.false_or, List.any_eq_true]
    constructor
    · intro some _
      exact some
    · intro required
      exact required (List.cons_ne_nil _ _)

theorem classKindsBreaches_eq_nil_iff {classFlags : ClassFlags} {flags : Flags o} :
    classKindsBreaches v classFlags flags = [] ↔ flags.Suits v classFlags := by
  have each : classKindsBreaches v classFlags flags = [] ↔
      ∀ kind ∈ Rules.classKinds, kind ⊆ classFlags →
        (∀ i : Nat, i ∈ flags → i ∉ Rules.excludedBy kind o) ∧
          (Rules.requiredBy kind v o ≠ [] →
            ∃ alternative ∈ Rules.requiredBy kind v o, alternative ⊆ flags) := by
    rw [classKindsBreaches, List.flatMap_eq_nil_iff]
    simp only [List.mem_filter, Flags.contains_iff, classKindBreaches_eq_nil_iff, and_imp]
  rw [each]
  constructor
  · intro kinds
    exact ⟨fun kind listed set => (kinds kind listed set).1,
      fun kind listed set => (kinds kind listed set).2⟩
  · intro h kind listed set
    exact ⟨h.none_excluded kind listed set, h.some_alternative kind listed set⟩

theorem methodNameBreaches_eq_nil_iff {name : String} {flags : MethodFlags} :
    methodNameBreaches v name flags = [] ↔ flags.SuitName v name := by
  rw [methodNameBreaches, List.append_eq_nil_iff, unless_eq_nil_iff, unless_eq_nil_iff,
    Flags.isEmpty_sdiff_iff, Flags.isEmpty_inter_iff]
  constructor
  · rintro ⟨required, permitted⟩
    refine ⟨required, fun i set known => Decidable.byContradiction fun missing => ?_⟩
    exact permitted i set (Flags.mem_sdiff.mpr ⟨known, missing⟩)
  · intro h
    refine ⟨h.required, fun i set rest => ?_⟩
    obtain ⟨known, missing⟩ := Flags.mem_sdiff.mp rest
    exact missing (h.permitted i set known)

theorem mayLackSuperClass_iff {c : ClassFile} :
    mayLackSuperClass c = true ↔
      c.pool.HasClass c.thisClass ClassFile.objectName ∨ ClassFlags.accModule ⊆ c.flags := by
  rw [mayLackSuperClass, Bool.or_eq_true, ClassFile.isModule, Flags.contains_iff, or_comm]
  apply or_congr_left
  constructor
  · intro same
    split at same
    · rename_i s named
      obtain ⟨name, found, string⟩ := Pool.className_eq_ok_iff.mp named
      exact ⟨name, found, Pool.hasText_iff.mpr ⟨s, string, beq_iff_eq.mp same⟩⟩
    · cases same
  · rintro ⟨name, found, text⟩
    obtain ⟨s, string, text⟩ := Pool.hasText_iff.mp text
    have named : c.thisClassName = .ok s := Pool.className_eq_ok_iff.mpr ⟨name, found, string⟩
    rw [named]
    exact beq_iff_eq.mpr text

theorem headerBreaches_eq_nil_iff {c : ClassFile} :
    headerBreaches c = [] ↔
      (c.pool.Holds c.thisClass .classRef ∧
        (c.pool.Holds c.superClass .classRef ∨ c.superClass = 0 ∧
          (c.pool.HasClass c.thisClass ClassFile.objectName ∨ ClassFlags.accModule ⊆ c.flags)) ∧
        ∀ index ∈ c.interfaces, c.pool.Holds index .classRef) ∧
      c.flags.Admitted c.version ∧ c.flags.Suits c.version c.flags := by
  rw [headerBreaches, List.append_eq_nil_iff, List.append_eq_nil_iff, and_assoc,
    referenceBreaches_eq_nil_iff, tableBreaches_eq_nil_iff, classKindsBreaches_eq_nil_iff]
  apply and_congr_left
  intro _
  rw [← mayLackSuperClass_iff, headerReferences]
  by_cases lacks : c.superClass = 0 ∧ mayLackSuperClass c = true
  · simp [lacks]
  · have named : (decide (c.superClass = 0) && mayLackSuperClass c) = false := by
      rw [Bool.eq_false_iff, Ne, Bool.and_eq_true, decide_eq_true_iff]
      exact lacks
    simp [named, lacks]

theorem memberReferences_lead_iff {m : Member o} :
    (∀ r ∈ memberReferences m, p.Holds r.index r.expected) ↔
      p.Holds m.name .utf8 ∧ p.Holds m.descriptor .utf8 := by
  simp [memberReferences]

theorem fieldBreaches_eq_nil_iff {c : ClassFile} {f : Field} :
    fieldBreaches c.setting f = [] ↔ f.Valid c := by
  rw [fieldBreaches, List.append_eq_nil_iff, List.append_eq_nil_iff, referenceBreaches_eq_nil_iff,
    memberReferences_lead_iff, tableBreaches_eq_nil_iff, classKindsBreaches_eq_nil_iff]
  constructor
  · rintro ⟨⟨⟨name, descriptor⟩, admitted⟩, suits⟩
    exact { name, descriptor, admitted, suits }
  · intro h
    exact ⟨⟨⟨h.name, h.descriptor⟩, h.admitted⟩, h.suits⟩

theorem methodName?_eq_some_iff {m : Method} {value : String} :
    methodName? p m = some value ↔ p.HasText m.name value := by
  rw [methodName?, Pool.hasText_iff, Member.nameIn]
  cases p.string m.name with
  | error e => simp
  | ok s => simp

theorem isExempt_iff {m : Method} :
    (methodName? p m).any Rules.isExemptFromClassKind = true ↔
      p.HasText m.name Method.classInitializerName := by
  rw [← methodName?_eq_some_iff, Option.any_eq_true]
  constructor
  · rintro ⟨name, named, exempt⟩
    rw [named, beq_iff_eq.mp exempt]
  · intro named
    exact ⟨_, named, beq_self_eq_true _⟩

theorem methodBreaches_eq_nil_iff {c : ClassFile} {m : Method} :
    methodBreaches c.setting m = [] ↔ m.Valid c := by
  have parts : m.Valid c ↔
      (((c.pool.Holds m.name .utf8 ∧ c.pool.Holds m.descriptor .utf8) ∧
          m.flags.Admitted c.version) ∧
        (¬c.pool.HasText m.name Method.classInitializerName → m.flags.Suits c.version c.flags)) ∧
      ∀ name, c.pool.HasText m.name name → m.flags.SuitName c.version name := by
    constructor
    · intro h
      exact ⟨⟨⟨⟨h.name, h.descriptor⟩, h.admitted⟩, h.suits⟩, h.suitName⟩
    · rintro ⟨⟨⟨⟨name, descriptor⟩, admitted⟩, suits⟩, suitName⟩
      exact { name, descriptor, admitted, suits, suitName }
  show (referenceBreaches c.pool (memberReferences m) ++ tableBreaches c.version m.flags ++ _) ++
    _ = [] ↔ _
  rw [parts, List.append_eq_nil_iff, List.append_eq_nil_iff, List.append_eq_nil_iff,
    referenceBreaches_eq_nil_iff, memberReferences_lead_iff, tableBreaches_eq_nil_iff]
  apply and_congr
  · apply and_congr_right
    intro _
    rw [← isExempt_iff, ← classKindsBreaches_eq_nil_iff]
    split
    · rename_i exempt
      exact iff_of_true rfl (absurd exempt)
    · rename_i bound
      exact ⟨fun none _ => none, fun none => none bound⟩
  · simp only [ClassFile.setting, ← methodName?_eq_some_iff]
    cases methodName? c.pool m with
    | none => simp
    | some name => simp [methodNameBreaches_eq_nil_iff]

theorem entryViolations_eq_nil_iff :
    entryViolations v p = [] ↔ ∀ entry ∈ p.entries,
      Rules.minimumVersion entry.2.kind ≤ v ∧ entry.2.Linked v p := by
  rw [entryViolations_eq_blocks, blocks_eq_nil_iff]
  simp only [constantBreaches_eq_nil_iff]

end Validation

namespace ClassFile

open Validation

variable {c : ClassFile}

/-- Validation finds nothing if and only if none of its checks does. -/
theorem validate_eq_nil_iff_parts :
    c.validate = [] ↔
      (((c.version.isSupported = true ∧ ∀ entry ∈ c.pool.entries,
          Rules.minimumVersion entry.2.kind ≤ c.version ∧ entry.2.Linked c.version c.pool) ∧
        headerBreaches c = []) ∧ ∀ f ∈ c.fields, f.Valid c) ∧ ∀ m ∈ c.methods, m.Valid c := by
  rw [validate_eq_blocks, List.append_eq_nil_iff, List.append_eq_nil_iff, List.append_eq_nil_iff,
    List.append_eq_nil_iff, located_eq_nil_iff, located_eq_nil_iff, versionBreaches,
    unless_eq_nil_iff, ← entryViolations_eq_blocks, entryViolations_eq_nil_iff,
    blocks_numbered_eq_nil_iff, blocks_numbered_eq_nil_iff]
  simp only [fieldBreaches_eq_nil_iff, methodBreaches_eq_nil_iff]

/-- With the constants told apart by their indices. -/
theorem validate_eq_nil_iff_checks (fits : c.pool.slots.size ≤ Pool.capacity) :
    c.validate = [] ↔
      (((c.version.isSupported = true ∧ ∀ index k, c.pool.get index = .ok k →
          Rules.minimumVersion k.kind ≤ c.version ∧ k.Linked c.version c.pool) ∧
        headerBreaches c = []) ∧ ∀ f ∈ c.fields, f.Valid c) ∧ ∀ m ∈ c.methods, m.Valid c := by
  rw [validate_eq_nil_iff_parts, Prod.forall]
  simp only [Pool.mem_entries_iff fits]

/-- Validation finds nothing in a class file if and only if it keeps all rules. -/
theorem validate_eq_nil_iff (c : ClassFile) (pool : c.pool.WellFormed) :
    c.validate = [] ↔ c.Valid := by
  rw [validate_eq_nil_iff_checks pool.size_le, headerBreaches_eq_nil_iff]
  constructor
  · rintro ⟨⟨⟨⟨version, entries⟩, ⟨thisClass, superClass, interfaces⟩, admitted, suits⟩, fields⟩,
      methods⟩
    exact {
      version, thisClass, superClass, interfaces, admitted, suits, fields, methods
      available := fun index k found => (entries index k found).1
      linked := fun index k found => (entries index k found).2
    }
  · intro h
    have entries (index : PoolIndex) (k : Constant) (found : c.pool.get index = .ok k) :
        Rules.minimumVersion k.kind ≤ c.version ∧ k.Linked c.version c.pool :=
      ⟨h.available index k found, h.linked index k found⟩
    exact ⟨⟨⟨⟨h.version, entries⟩, ⟨h.thisClass, h.superClass, h.interfaces⟩, h.admitted, h.suits⟩,
      h.fields⟩, h.methods⟩

/-- An interface with one method, which a method handle calls. -/
def callable : ClassFile where
  version := .jdk 8
  pool := .ofConstants [.utf8 (.text "A"), .classRef 1, .utf8 (.text "java/lang/Object"),
    .classRef 3, .utf8 (.text "run"), .utf8 (.text "()V"), .nameAndType 5 6,
    .interfaceMethodRef 2 7, .methodHandle .invokeInterface 8]
  flags := ClassFlags.accInterface ∪ ClassFlags.accAbstract
  thisClass := 2
  superClass := 4
  interfaces := []
  fields := []
  methods := [⟨MethodFlags.accPublic ∪ MethodFlags.accAbstract, 5, 6, []⟩]
  attributes := []

theorem valid_callable :
    callable.Valid ∧ ¬({ callable with superClass := 0 } : ClassFile).Valid := by
  have pool : callable.pool.WellFormed := Pool.wellFormed_iff.mpr ⟨_, rfl, by decide⟩
  have clean : callable.validate = [] := rfl
  have found : ({ callable with superClass := 0 } : ClassFile).validate ≠ [] := by
    decide
  exact ⟨(validate_eq_nil_iff callable pool).mp clean, fun valid =>
    found ((validate_eq_nil_iff { callable with superClass := 0 } pool).mpr valid)⟩

end ClassFile

end ClassFormat
