import ClassFormat.Proofs.Validation.Verdict
import Mathlib.Data.List.Basic

/-!
What validation finds in a class file once its version is changed. The minor number counts for
nothing but whether the version is supported (`validate_minor`), and under a later version a valid
class file breaks two rules at most (`validate_upgrade`).
-/
namespace ClassFormat

def Breach.isUnsupportedVersion : Breach → Bool
  | unsupportedClassVersion _ => true
  | _ => false

namespace Validation

variable {o : FlagOwner} {v w : Version} {p : Pool}

theorem handleBreaches_of_major_eq (same : v.major = w.major) (kind : ReferenceKind)
    (target : PoolIndex) : handleBreaches v p kind target = handleBreaches w p kind target := by
  rw [handleBreaches, handleBreaches, Rules.permittedReferents_of_major_eq kind same]

theorem constantBreaches_of_major_eq (same : v.major = w.major) (k : Constant) :
    constantBreaches v p k = constantBreaches w p k := by
  have since := Version.lt_iff_of_major_eq (Rules.minor_minimumVersion k.kind) same
  simp only [constantBreaches, since, handleBreaches_of_major_eq same]

theorem filter_versionBreaches (v : Version) :
    (versionBreaches v).filter (!·.isUnsupportedVersion) = [] := by
  rw [versionBreaches]
  split
  · rfl
  · rfl

theorem windowBreaches_of_major_eq (same : v.major = w.major)
    {windows : List (Flags o × FlagWindow)}
    (whole : ∀ entry ∈ windows, ∀ bound ∈ Rules.bounds entry.2, bound.minor = 0)
    (flags : Flags o) : windowBreaches v windows flags = windowBreaches w windows flags := by
  apply List.filterMap_congr
  rintro ⟨flag, window⟩ listed
  have bounds := whole _ listed
  have early := Version.lt_iff_of_major_eq (bounds _ List.mem_cons_self) same
  cases limit : window.removed with
  | none => simp only [limit, early]
  | some removed =>
    have isBound : removed ∈ Rules.bounds window := by simp [Rules.bounds, limit]
    have late := Version.le_iff_of_major_eq (bounds _ isBound) same
    simp only [limit, early, late]

theorem tableBreaches_of_major_eq (same : v.major = w.major) (flags : Flags o) :
    tableBreaches v flags = tableBreaches w flags := by
  rw [tableBreaches, tableBreaches, windowBreaches_of_major_eq same (Rules.minor_flagWindows o),
    Rules.exclusiveSets_eq, Rules.exclusiveSets_eq]

theorem classKindsBreaches_of_major_eq (same : v.major = w.major) (classFlags : ClassFlags)
    (flags : Flags o) :
    classKindsBreaches v classFlags flags = classKindsBreaches w classFlags flags := by
  simp only [classKindsBreaches, Rules.requiredBy_of_major_eq _ o same]

theorem methodNameBreaches_of_major_eq (same : v.major = w.major) (name : String)
    (flags : MethodFlags) : methodNameBreaches v name flags = methodNameBreaches w name flags := by
  rw [methodNameBreaches, methodNameBreaches, Rules.requiredByName_of_major_eq name same]

theorem fieldBreaches_of_major_eq (same : v.major = w.major) (classFlags : ClassFlags) (f : Field) :
    fieldBreaches ⟨v, p, classFlags⟩ f = fieldBreaches ⟨w, p, classFlags⟩ f := by
  simp only [fieldBreaches, tableBreaches_of_major_eq same, classKindsBreaches_of_major_eq same]

theorem entryViolations_of_major_eq (same : v.major = w.major) (p : Pool) :
    entryViolations v p = entryViolations w p := by
  simp only [entryViolations, constantBreaches_of_major_eq same]

theorem methodBreaches_of_major_eq (same : v.major = w.major) (classFlags : ClassFlags)
    (m : Method) : methodBreaches ⟨v, p, classFlags⟩ m = methodBreaches ⟨w, p, classFlags⟩ m := by
  simp only [methodBreaches, tableBreaches_of_major_eq same, classKindsBreaches_of_major_eq same,
    methodNameBreaches_of_major_eq same]

end Validation

namespace ClassFile

open Validation

variable {v w : Version}

def withVersion (c : ClassFile) (v : Version) : ClassFile := { c with version := v }

theorem headerBreaches_of_major_eq (same : v.major = w.major) (c : ClassFile) :
    headerBreaches (c.withVersion v) = headerBreaches (c.withVersion w) := by
  show referenceBreaches c.pool (headerReferences c) ++ tableBreaches v c.flags ++
      classKindsBreaches v c.flags c.flags =
    referenceBreaches c.pool (headerReferences c) ++ tableBreaches w c.flags ++
      classKindsBreaches w c.flags c.flags
  rw [tableBreaches_of_major_eq same, classKindsBreaches_of_major_eq same]

theorem behindPool_of_major_eq (same : v.major = w.major) (c : ClassFile) :
    (c.withVersion v).behindPool = (c.withVersion w).behindPool := by
  unfold behindPool
  rw [headerBreaches_of_major_eq same]
  simp only [withVersion, setting, fieldBreaches_of_major_eq same, methodBreaches_of_major_eq same]

theorem filter_validate_withVersion (c : ClassFile) (v : Version) :
    (c.withVersion v).validate.filter (!·.breach.isUnsupportedVersion) =
      (entryViolations v c.pool ++ (c.withVersion v).behindPool).filter
        (!·.breach.isUnsupportedVersion) := by
  rw [validate_eq_behindPool, List.append_assoc, List.filter_append,
    filter_breach_located (!·.isUnsupportedVersion), filter_versionBreaches]
  rfl

/-- The minor number decides on nothing but whether the version is supported. -/
theorem validate_minor (c : ClassFile) (major minor minor' : UInt16) :
    (c.withVersion ⟨major, minor⟩).validate.filter (!·.breach.isUnsupportedVersion) =
      (c.withVersion ⟨major, minor'⟩).validate.filter (!·.breach.isUnsupportedVersion) := by
  have same : (Version.mk major minor).major = (Version.mk major minor').major := rfl
  rw [filter_validate_withVersion, filter_validate_withVersion, entryViolations_of_major_eq same,
    behindPool_of_major_eq same]

end ClassFile

/-! Later versions. -/

namespace Validation

variable {o : FlagOwner} {v w : Version} {p : Pool}

/-- The listed flags of a set that a version no longer allows. -/
def removals (w : Version) (windows : List (Flags o × FlagWindow)) (flags : Flags o) :
    List Breach :=
  windows.filterMap fun entry => entry.2.removed.bind fun removed =>
    if entry.1 ⊆ flags ∧ removed ≤ w then some (.flagRemoved ⟨o, entry.1⟩ removed) else none

/-- Windows do not begin anew: what is inside of them stays there until they end. -/
theorem windowBreaches_later {windows : List (Flags o × FlagWindow)} {flags : Flags o}
    (later : v ≤ w) (inside : ∀ flag window, (flag, window) ∈ windows → flag ⊆ flags →
      window.contains v = true) :
    windowBreaches w windows flags = removals w windows flags := by
  apply List.filterMap_congr
  rintro ⟨flag, window⟩ listed
  by_cases set : flag ⊆ flags
  · have contained := inside flag window listed set
    rw [FlagWindow.contains, Bool.and_eq_true, decide_eq_true_iff] at contained
    have begun : ¬w < window.added := Version.not_lt.mpr (Version.le_trans contained.1 later)
    cases limit : window.removed with
    | none => simp [Flags.contains_iff.mpr set, begun, limit]
    | some removed => simp [Flags.contains_iff.mpr set, begun, limit, set]
  · have unset : flags.contains flag = false := by
      rw [Bool.eq_false_iff, Ne, Flags.contains_iff]
      exact set
    cases limit : window.removed with
    | none => simp [unset]
    | some removed => simp [unset, set]

theorem tableBreaches_later {flags : Flags o} (later : v ≤ w) (admitted : flags.Admitted v) :
    tableBreaches w flags = removals w (Rules.flagWindows o) flags := by
  have sets : exclusionBreaches (Rules.exclusiveSets o w) flags = [] := by
    rw [Rules.exclusiveSets_eq, ← Rules.exclusiveSets_eq (v := v)]
    exact exclusionBreaches_eq_nil_iff.mpr admitted.at_most_one
  rw [tableBreaches, sets, List.append_nil, windowBreaches_later later admitted.in_window]

theorem removals_method (flags : MethodFlags) :
    removals w (Rules.flagWindows .method) flags =
      if MethodFlags.accStrict ⊆ flags ∧ .jdk 17 ≤ w then
        [.flagRemoved ⟨.method, MethodFlags.accStrict⟩ (.jdk 17)] else [] := by
  by_cases removed : MethodFlags.accStrict ⊆ flags ∧ Version.jdk 17 ≤ w
  · rw [if_pos removed]
    simp [removals, Rules.flagWindows, FlagWindow.between, FlagWindow.since, removed]
  · rw [if_neg removed]
    simp [removals, Rules.flagWindows, FlagWindow.between, FlagWindow.since, removed]

theorem missing_eq {name : String} {flags : MethodFlags} (suits : flags.SuitName v name) :
    Rules.requiredByName name w \ flags =
      if name = Method.classInitializerName ∧ ¬MethodFlags.accStatic ⊆ flags ∧ v < .jdk 7 ∧
          .jdk 7 ≤ w then MethodFlags.accStatic else ∅ := by
  have nothing : (∅ : MethodFlags) \ flags = ∅ := by
    rw [Flags.eq_iff]
    simp
  have required := suits.required
  rw [Rules.requiredByName] at required ⊢
  by_cases bound : name = Method.classInitializerName ∧ Version.jdk 7 ≤ w
  · rw [if_pos bound]
    by_cases static : MethodFlags.accStatic ⊆ flags
    · have none : MethodFlags.accStatic \ flags = ∅ := by
        rw [Flags.eq_iff]
        intro i
        simpa using static i
      rw [none, if_neg fun h => h.2.1 static]
    · have early : v < .jdk 7 := by
        rw [← Version.not_le]
        intro already
        rw [if_pos ⟨bound.1, already⟩] at required
        exact static required
      rw [if_pos ⟨bound.1, static, early, bound.2⟩]
      exact Flags.sdiff_eq_self (by decide) static
  · rw [if_neg bound, nothing, if_neg fun h => bound ⟨h.1, h.2.2.2⟩]

theorem methodNameBreaches_later {name : String} {flags : MethodFlags}
    (suits : flags.SuitName v name) :
    methodNameBreaches w name flags =
      if name = Method.classInitializerName ∧ ¬MethodFlags.accStatic ⊆ flags ∧ v < .jdk 7 ∧
          .jdk 7 ≤ w then
        [.requiredByName name ⟨.method, MethodFlags.accStatic⟩] else [] := by
  have clean := methodNameBreaches_eq_nil_iff.mpr suits
  rw [methodNameBreaches, List.append_eq_nil_iff] at clean
  rw [methodNameBreaches, clean.2, List.append_nil, missing_eq suits]
  split
  · rw [if_neg (by decide)]
  · rw [if_pos (by decide)]

end Validation

namespace Flags

variable {o : FlagOwner} {v w : Version} {flags : Flags o} {classFlags : ClassFlags}

theorem Suits.later (later : v ≤ w) (suits : flags.Suits v classFlags) :
    flags.Suits w classFlags where
  none_excluded := suits.none_excluded
  some_alternative := fun kind listed set =>
    Rules.requiredBy_mono later (suits.some_alternative kind listed set)

end Flags

theorem Constant.Linked.later {v w : Version} {p : Pool} {k : Constant} (later : v ≤ w)
    (linked : k.Linked v p) : k.Linked w p := by
  cases k with
  | methodHandle kind target =>
    obtain ⟨next, found, permitted, calls⟩ := linked
    exact ⟨next, found, Rules.permittedReferents_mono kind later permitted, calls⟩
  | _ => exact linked

namespace ClassFile

open Validation

variable {c : ClassFile} {w : Version}

/-- What a method breaks once the version of its valid class file is raised. -/
def upgradeBreaches (c : ClassFile) (w : Version) (m : Method) : List Breach :=
  (if MethodFlags.accStrict ⊆ m.flags ∧ .jdk 17 ≤ w then
      [.flagRemoved ⟨.method, MethodFlags.accStrict⟩ (.jdk 17)] else []) ++
    if c.pool.HasText m.name Method.classInitializerName ∧ ¬MethodFlags.accStatic ⊆ m.flags ∧
        c.version < .jdk 7 ∧ .jdk 7 ≤ w then
      [.requiredByName Method.classInitializerName ⟨.method, MethodFlags.accStatic⟩] else []

theorem headerBreaches_later (later : c.version ≤ w) (clean : headerBreaches c = []) :
    headerBreaches (c.withVersion w) = [] := by
  obtain ⟨references, admitted, suits⟩ := headerBreaches_eq_nil_iff.mp clean
  have table : tableBreaches w c.flags = [] := tableBreaches_later later admitted
  exact headerBreaches_eq_nil_iff.mpr
    ⟨references, tableBreaches_eq_nil_iff.mp table, suits.later later⟩

theorem fieldBreaches_later {f : Field} (later : c.version ≤ w) (valid : f.Valid c) :
    fieldBreaches (c.withVersion w).setting f = [] := by
  have table : tableBreaches w f.flags = [] := tableBreaches_later later valid.admitted
  exact fieldBreaches_eq_nil_iff.mpr {
    name := valid.name
    descriptor := valid.descriptor
    admitted := tableBreaches_eq_nil_iff.mp table
    suits := valid.suits.later later }

theorem methodBreaches_later {m : Method} (later : c.version ≤ w) (valid : m.Valid c) :
    methodBreaches (c.withVersion w).setting m = upgradeBreaches c w m := by
  have references : referenceBreaches c.pool (memberReferences m) = [] :=
    referenceBreaches_eq_nil_iff.mpr (memberReferences_lead_iff.mpr ⟨valid.name, valid.descriptor⟩)
  have table := tableBreaches_later later valid.admitted
  have kinds : (if (methodName? c.pool m).any Rules.isExemptFromClassKind then []
      else classKindsBreaches w c.flags m.flags) = [] := by
    split
    · rfl
    · rename_i bound
      rw [isExempt_iff] at bound
      exact classKindsBreaches_eq_nil_iff.mpr ((valid.suits bound).later later)
  show referenceBreaches c.pool (memberReferences m) ++ tableBreaches w m.flags ++
    (if (methodName? c.pool m).any Rules.isExemptFromClassKind then []
      else classKindsBreaches w c.flags m.flags) ++ _ = _
  rw [references, kinds, table, removals_method, upgradeBreaches, List.nil_append, List.append_nil]
  apply congrArg
  -- Only the rules for the name are left.
  split
  · rename_i name named
    have text : c.pool.HasText m.name name := methodName?_eq_some_iff.mp named
    rw [methodNameBreaches_later (valid.suitName name text)]
    by_cases initializer : name = Method.classInitializerName
    · subst initializer
      simp only [text, true_and]
      rfl
    · have other : ¬c.pool.HasText m.name Method.classInitializerName := by
        intro text'
        cases text.symm.trans text'
        exact initializer rfl
      rw [if_neg fun h => initializer h.1, if_neg fun h => other h.1]
  · rename_i unnamed
    rw [if_neg]
    rintro ⟨text, -⟩
    cases unnamed.symm.trans (methodName?_eq_some_iff.mpr text)

/-- Under a later version a valid class file breaks two rules at most: a flag that is no longer
allowed is set, or a class initializer lacks the flag that it has to have by now. -/
theorem validate_upgrade (clean : c.validate = []) (later : c.version ≤ w)
    (supported : w.isSupported = true) :
    (c.withVersion w).validate =
      c.methods.zipIdx.flatMap fun (m, i) => located (.method i) (upgradeBreaches c w m) := by
  obtain ⟨⟨⟨⟨-, entries⟩, header⟩, fields⟩, methods⟩ := validate_eq_nil_iff_parts.mp clean
  have version : versionBreaches w = [] := unless_eq_nil_iff.mpr supported
  have entries' : entryViolations w c.pool = [] := by
    refine entryViolations_eq_nil_iff.mpr fun entry member => ?_
    obtain ⟨available, linked⟩ := entries entry member
    exact ⟨Version.le_trans available later, linked.later later⟩
  have fields' : blocks (fun e => .field e.2)
      (fun e => fieldBreaches (c.withVersion w).setting e.1) c.fields.zipIdx = [] :=
    blocks_numbered_eq_nil_iff.mpr fun f member => fieldBreaches_later later (fields f member)
  have methods' : blocks (fun e => .method e.2)
      (fun e => methodBreaches (c.withVersion w).setting e.1) c.methods.zipIdx =
      blocks (fun e => .method e.2) (fun e => upgradeBreaches c w e.1) c.methods.zipIdx := by
    apply blocks_congr
    intro e listed
    exact methodBreaches_later later (methods e.1 (List.fst_mem_of_mem_zipIdx listed))
  rw [validate_eq_behindPool, behindPool, headerBreaches_later later header]
  show located .classFile (versionBreaches w) ++ entryViolations w c.pool ++
    (located .classFile [] ++ _ ++ _) = _
  rw [version, entries']
  exact (congrArg₂ (· ++ ·) fields' methods').trans (List.nil_append _)

/-- A class from before release 7 with a class initializer of strict arithmetic, not yet static. -/
def initialized : ClassFile where
  version := .jdk 6
  pool := .ofConstants [.utf8 (.text objectName), .classRef 1, .utf8 (.text "<clinit>"),
    .utf8 (.text "()V"), .utf8 (.text "run")]
  flags := ClassFlags.accPublic ∪ ClassFlags.accSuper
  thisClass := 2
  superClass := 0
  interfaces := []
  fields := []
  methods := [⟨MethodFlags.accStrict, 3, 4, []⟩, ⟨MethodFlags.accPublic, 5, 4, []⟩]
  attributes := []

theorem validate_upgrade_initialized :
    initialized.validate = [] ∧ (initialized.withVersion (.jdk 17)).validate =
      [⟨.method 0, .flagRemoved ⟨.method, MethodFlags.accStrict⟩ (.jdk 17)⟩,
        ⟨.method 0, .requiredByName "<clinit>" ⟨.method, MethodFlags.accStatic⟩⟩] := by
  have clean : initialized.validate = [] := rfl
  refine ⟨clean, ?_⟩
  rw [validate_upgrade clean (by decide) rfl]
  decide +kernel

end ClassFile

end ClassFormat
