import ClassFormat.Proofs.Validation.Reports

/-!
What is reported about flags that do not go together. The rules speak of flags as sets of bit
numbers; each of them finds one breach, with all the flags that break it, or none. Main statement:
`combinations_reported`.
-/
namespace ClassFormat

namespace Flags

variable {o : FlagOwner} {a b : Flags o}

/-- Some flag of the second set is in the first. -/
def HasSome (a b : Flags o) : Prop := ∃ i : Nat, i ∈ a ∧ i ∈ b

/-- At least two flags of the second set are in the first. -/
def HasTwo (a b : Flags o) : Prop := ∃ i j : Nat, i ≠ j ∧ (i ∈ a ∧ i ∈ b) ∧ j ∈ a ∧ j ∈ b

theorem hasSome_iff : a.HasSome b ↔ ¬(a ∩ b).isEmpty = true := by
  simp only [isEmpty_inter_iff, HasSome, not_forall, exists_prop, Decidable.not_not]

theorem hasTwo_iff : a.HasTwo b ↔ 1 < (a ∩ b).size := by
  rw [← Nat.not_le, size_le_one_iff]
  simp only [mem_inter, HasTwo, not_forall, exists_prop]
  constructor
  · rintro ⟨i, j, differ, left, right⟩
    exact ⟨i, left, j, right, differ⟩
  · rintro ⟨i, left, j, right, differ⟩
    exact ⟨i, j, differ, left, right⟩

instance (a b : Flags o) : Decidable (a.HasSome b) := decidable_of_iff _ hasSome_iff.symm

instance (a b : Flags o) : Decidable (a.HasTwo b) := decidable_of_iff _ hasTwo_iff.symm

end Flags

namespace Validation

variable {o : FlagOwner} {v : Version}

/-- One breach if something is at fault, and none if not. -/
def onlyIf (fault : Prop) [Decidable fault] (breach : Breach) : List Breach :=
  if fault then [breach] else []

/-- Of each set of flags that exclude each other, those that are set, if there are two of them. -/
def exclusionReport (v : Version) (flags : Flags o) : List Breach :=
  (Rules.exclusiveSets o v).flatMap fun set =>
    onlyIf (flags.HasTwo set) (.mutuallyExclusive ⟨o, flags ∩ set⟩)

/-- What one kind of class forbids and what it asks for. -/
def kindReport (v : Version) (kind : ClassFlags) (flags : Flags o) : List Breach :=
  onlyIf (flags.HasSome (Rules.excludedBy kind o))
      (.excludedByClassKind kind ⟨o, flags ∩ Rules.excludedBy kind o⟩) ++
    onlyIf (Rules.requiredBy kind v o ≠ [] ∧
        ∀ alternative ∈ Rules.requiredBy kind v o, ¬alternative ⊆ flags)
      (.requiredByClassKind kind ((Rules.requiredBy kind v o).map (⟨o, ·⟩)))

def kindsReport (v : Version) (classFlags : ClassFlags) (flags : Flags o) : List Breach :=
  ([ClassFlags.accInterface, ClassFlags.accAnnotation, ClassFlags.accModule].filter
    (· ⊆ classFlags)).flatMap fun kind => kindReport v kind flags

/-- What the name of a method asks for and what it forbids. -/
def nameReport (v : Version) (name : String) (flags : MethodFlags) : List Breach :=
  onlyIf (¬Rules.requiredByName name v ⊆ flags)
      (.requiredByName name ⟨.method, Rules.requiredByName name v \ flags⟩) ++
    onlyIf (flags.HasSome (Flags.known \ Rules.permittedByName name))
      (.notPermittedByName name ⟨.method, flags ∩ (Flags.known \ Rules.permittedByName name)⟩)

theorem exclusionBreaches_eq (flags : Flags o) :
    exclusionBreaches (Rules.exclusiveSets o v) flags = exclusionReport v flags := by
  unfold exclusionBreaches exclusionReport
  induction Rules.exclusiveSets o v with
  | nil => rfl
  | cons set sets ih =>
    rw [List.filterMap_cons, List.flatMap_cons, ← ih]
    by_cases both : flags.HasTwo set
    · rw [if_pos (Flags.hasTwo_iff.mp both), onlyIf, if_pos both]
      rfl
    · rw [if_neg fun many => both (Flags.hasTwo_iff.mpr many), onlyIf, if_neg both]
      rfl

theorem classKindBreaches_eq (kind : ClassFlags) (flags : Flags o) :
    classKindBreaches kind (Rules.excludedBy kind o) (Rules.requiredBy kind v o) flags =
      kindReport v kind flags := by
  have lacks : (Rules.requiredBy kind v o ≠ [] ∧
      ∀ alternative ∈ Rules.requiredBy kind v o, ¬alternative ⊆ flags) ↔
      ¬((Rules.requiredBy kind v o).isEmpty ||
        (Rules.requiredBy kind v o).any flags.contains) = true := by
    simp only [Bool.or_eq_true, List.isEmpty_iff, List.any_eq_true, Flags.contains_iff, not_or,
      not_exists, not_and]
  unfold classKindBreaches kindReport onlyIf
  simp only [Flags.hasSome_iff, lacks, ite_not]

theorem classKindsBreaches_eq (classFlags : ClassFlags) (flags : Flags o) :
    classKindsBreaches v classFlags flags = kindsReport v classFlags flags := by
  have kinds : Rules.classKinds.filter classFlags.contains = Rules.classKinds.filter
      (· ⊆ classFlags) := by
    apply List.filter_congr
    intro kind _
    rw [Bool.eq_iff_iff, Flags.contains_iff, decide_eq_true_iff]
  unfold classKindsBreaches kindsReport
  simp only [kinds, classKindBreaches_eq]
  rfl

theorem methodNameBreaches_eq (name : String) (flags : MethodFlags) :
    methodNameBreaches v name flags = nameReport v name flags := by
  unfold methodNameBreaches nameReport onlyIf
  simp only [Flags.hasSome_iff, ← Flags.isEmpty_sdiff_iff, ite_not]
  rfl

/-- In front of the rest, the references and the windows are left out. -/
theorem filter_combination_part (p : Pool) (references : List Reference) (flags : Flags o)
    {rest : List Breach} (same : ∀ breach ∈ rest, breach.subject = .combination) :
    (referenceBreaches p references ++ tableBreaches v flags ++ rest).filter
        (·.subject = .combination) =
      exclusionReport v flags ++ rest := by
  unfold tableBreaches
  simp only [List.filter_append]
  rw [filter_other_subject (fun _ => subject_of_mem_reference) (by decide),
    filter_other_subject (fun _ => subject_of_mem_window) (by decide),
    filter_subject_eq_self fun _ => subject_of_mem_exclusion, filter_subject_eq_self same,
    exclusionBreaches_eq, List.nil_append, List.nil_append]

theorem filter_combination_common (p : Pool) (references : List Reference)
    (classFlags : ClassFlags) (flags : Flags o) :
    (referenceBreaches p references ++ tableBreaches v flags ++
        classKindsBreaches v classFlags flags).filter (·.subject = .combination) =
      exclusionReport v flags ++ kindsReport v classFlags flags := by
  rw [filter_combination_part p references flags fun _ => subject_of_mem_classKinds,
    classKindsBreaches_eq]

/-- The rules on names come last, and the name of class initializers exempts from those on kinds. -/
theorem filter_combination_named {s : Setting} {m : Method} {name : String}
    (text : s.pool.HasText m.name name) :
    (methodBreaches s m).filter (·.subject = .combination) =
      exclusionReport s.version m.flags ++
        ((if name = Method.classInitializerName then []
          else kindsReport s.version s.flags m.flags) ++
        nameReport s.version name m.flags) := by
  have kinds : (if Rules.isExemptFromClassKind name then []
      else classKindsBreaches s.version s.flags m.flags) =
      if name = Method.classInitializerName then []
      else kindsReport s.version s.flags m.flags := by
    simp only [Rules.isExemptFromClassKind, beq_iff_eq, classKindsBreaches_eq]
  have same (breach : Breach) (member : breach ∈ (if Rules.isExemptFromClassKind name then []
      else classKindsBreaches s.version s.flags m.flags) ++
        methodNameBreaches s.version name m.flags) : breach.subject = .combination := by
    rcases List.mem_append.mp member with kinds | names
    · exact subject_of_mem_classKinds (List.mem_ite_nil_left.mp kinds).2
    · exact subject_of_mem_methodName names
  unfold methodBreaches
  simp only [methodName?_eq_some_iff.mpr text, Option.any_some]
  rw [List.append_assoc, filter_combination_part s.pool (memberReferences m) m.flags same, kinds,
    methodNameBreaches_eq]

theorem filter_combination_unnamed {s : Setting} {m : Method}
    (unnamed : ∀ name, ¬s.pool.HasText m.name name) :
    (methodBreaches s m).filter (·.subject = .combination) =
      exclusionReport s.version m.flags ++ kindsReport s.version s.flags m.flags := by
  have none : methodName? s.pool m = none := by
    apply Option.eq_none_iff_forall_ne_some.mpr
    intro name named
    exact unnamed name (methodName?_eq_some_iff.mp named)
  unfold methodBreaches
  simp only [none, Option.any_none, Bool.false_eq_true, if_false, List.append_nil]
  exact filter_combination_common s.pool (memberReferences m) s.flags m.flags

end Validation

namespace ClassFile

open Validation

variable {c : ClassFile}

/-- What is reported at a place about flags that do not go together. -/
def combinationsAt (c : ClassFile) (location : Location) : List Breach :=
  (c.reportAt location).filter (·.subject = .combination)

/-- The rules on flags that hold for the header and for each member, in the order in which they are
reported. -/
structure CombinationsReported (c : ClassFile) : Prop where
  header : c.combinationsAt .classFile =
    exclusionReport c.version c.flags ++ kindsReport c.version c.flags c.flags
  fields : ∀ i f, c.fields[i]? = some f → c.combinationsAt (.field i) =
    exclusionReport c.version f.flags ++ kindsReport c.version c.flags f.flags
  /-- Class initializers are exempt from the rules of the class. -/
  named : ∀ i m name, c.methods[i]? = some m → c.pool.HasText m.name name →
    c.combinationsAt (.method i) = exclusionReport c.version m.flags ++
      ((if name = Method.classInitializerName then [] else kindsReport c.version c.flags m.flags) ++
      nameReport c.version name m.flags)
  unnamed : ∀ i m, c.methods[i]? = some m → (∀ name, ¬c.pool.HasText m.name name) →
    c.combinationsAt (.method i) =
      exclusionReport c.version m.flags ++ kindsReport c.version c.flags m.flags
  elsewhere : ∀ violation ∈ c.validate, violation.breach.subject = .combination →
    violation.location = .classFile ∨
      (∃ i, i < c.fields.length ∧ violation.location = .field i) ∨
      ∃ i, i < c.methods.length ∧ violation.location = .method i

theorem location_of_combination {violation : Violation} (member : violation ∈ c.validate)
    (same : violation.breach.subject = .combination) :
    violation.location = .classFile ∨
      (∃ i, i < c.fields.length ∧ violation.location = .field i) ∨
      ∃ i, i < c.methods.length ∧ violation.location = .method i := by
  simp only [validate_eq_blocks, List.mem_append, mem_located_iff, mem_blocks_iff] at member
  obtain (((⟨place, _⟩ | ⟨e, _, _, found⟩) | ⟨place, _⟩) | ⟨e, listed, place, _⟩) |
    ⟨e, listed, place, _⟩ := member
  · exact .inl place
  · have subject := subject_of_mem_constant found
    rw [same] at subject
    simp at subject
  · exact .inl place
  · exact .inr (.inl ⟨e.2, List.snd_lt_of_mem_zipIdx listed, place⟩)
  · exact .inr (.inr ⟨e.2, List.snd_lt_of_mem_zipIdx listed, place⟩)

/-- At the header and at each member, the breaches of the rules on flags that do not go together are
those that the rules say, in their order; and there are none elsewhere. -/
theorem combinations_reported (c : ClassFile) : c.CombinationsReported where
  header := by
    rw [combinationsAt, reportAt_classFile, List.filter_append,
      filter_other_subject (fun _ => subject_of_mem_version) (by decide), List.nil_append]
    exact filter_combination_common c.pool (headerReferences c) c.flags c.flags
  fields i f found := by
    rw [combinationsAt, reportAt_field found]
    exact filter_combination_common c.pool (memberReferences f) c.flags f.flags
  named i m name found text := by
    rw [combinationsAt, reportAt_method found]
    exact filter_combination_named text
  unnamed i m found unnamed := by
    rw [combinationsAt, reportAt_method found]
    exact filter_combination_unnamed unnamed
  elsewhere _ := location_of_combination

/-- An annotation that is no interface, with a class initializer that is not static. -/
def tangled : ClassFile where
  version := .jdk 8
  pool := .ofConstants [.utf8 (.text Method.classInitializerName)]
  flags := ClassFlags.accAnnotation ∪ ClassFlags.accFinal ∪ ClassFlags.accAbstract
  thisClass := 0
  superClass := 0
  interfaces := []
  fields := []
  methods := [⟨MethodFlags.accPublic ∪ MethodFlags.accPrivate, 1, 1, []⟩]
  attributes := []

theorem combinations_reported_tangled :
    tangled.combinationsAt .classFile =
        [.mutuallyExclusive ⟨.classFile, ClassFlags.accFinal ∪ ClassFlags.accAbstract⟩,
          .requiredByClassKind ClassFlags.accAnnotation
            [⟨.classFile, ClassFlags.accInterface⟩]] ∧
      tangled.combinationsAt (.method 0) =
        [.mutuallyExclusive ⟨.method, MethodFlags.accPublic ∪ MethodFlags.accPrivate⟩,
          .requiredByName Method.classInitializerName ⟨.method, MethodFlags.accStatic⟩] := by
  have reported := combinations_reported tangled
  have initializer : tangled.pool.HasText 1 Method.classInitializerName := rfl
  constructor
  · rw [reported.header]
    decide
  · rw [reported.named 0 _ _ rfl initializer]
    decide

end ClassFile

end ClassFormat
