import ClassFormat.Proofs.Pool.Runs
import ClassFormat.Proofs.Validation.VersionChange
import Mathlib.Data.List.InsertIdx

/-!
What is reported where. Violations come in blocks, one for each place, and the places come in a
fixed order; the block of a member hangs on the version, the pool and the flags of the class and on
this member, but on no other member and on no position. Main statement: `validate_in_order`.
-/
namespace ClassFormat

def Location.isMember : Location → Bool
  | field _ | method _ => true
  | classFile | poolEntry _ => false

/-- What a breach is about. -/
inductive Subject where
  | version | availability | window
  /-- Flags that do not go together, or not with the class or the name. -/
  | combination
  | target | reference
  deriving DecidableEq, Repr

def Breach.subject : Breach → Subject
  | unsupportedClassVersion _ => .version
  | constantKindUnavailable _ _ => .availability
  | flagNotYetIntroduced _ _ | flagRemoved _ _ => .window
  | mutuallyExclusive _ | excludedByClassKind _ _ | requiredByClassKind _ _ | requiredByName _ _
  | notPermittedByName _ _ => .combination
  | referentKind _ _ | reservedTargetName _ _ | constructorRequired _ => .target
  | badReference _ _ => .reference

theorem Breach.isUnsupportedVersion_iff {breach : Breach} :
    breach.isUnsupportedVersion = true ↔ breach.subject = .version := by
  cases breach <;> simp [isUnsupportedVersion, subject]

namespace Validation

variable {α : Type} {o : FlagOwner} {location : Location} {breach : Breach}

/-! What the breaches that a check finds are about. -/

theorem subject_of_mem_reference {p : Pool} {references : List Reference}
    (member : breach ∈ referenceBreaches p references) : breach.subject = .reference := by
  obtain ⟨r, _, found⟩ := List.mem_filterMap.mp member
  split at found
  · cases found
  · cases found
    rfl

theorem subject_of_mem_window {v : Version} {windows : List (Flags o × FlagWindow)}
    {flags : Flags o} (member : breach ∈ windowBreaches v windows flags) :
    breach.subject = .window := by
  obtain ⟨⟨flag, window⟩, _, found⟩ := List.mem_filterMap.mp member
  dsimp only at found
  split at found
  · cases found
  split at found
  · cases found
    rfl
  split at found
  · split at found
    · cases found
      rfl
    · cases found
  · cases found

theorem subject_of_mem_exclusion {sets : List (Flags o)} {flags : Flags o}
    (member : breach ∈ exclusionBreaches sets flags) : breach.subject = .combination := by
  obtain ⟨set, _, found⟩ := List.mem_filterMap.mp member
  split at found
  · cases found
    rfl
  · cases found

theorem subject_of_mem_classKinds {v : Version} {classFlags : ClassFlags} {flags : Flags o}
    (member : breach ∈ classKindsBreaches v classFlags flags) :
    breach.subject = .combination := by
  obtain ⟨kind, _, found⟩ := List.mem_flatMap.mp member
  unfold classKindBreaches at found
  simp only [List.mem_append, List.mem_ite_nil_left, List.mem_singleton] at found
  obtain ⟨_, rfl⟩ | ⟨_, rfl⟩ := found
  · rfl
  · rfl

theorem subject_of_mem_methodName {v : Version} {name : String} {flags : MethodFlags}
    (member : breach ∈ methodNameBreaches v name flags) : breach.subject = .combination := by
  unfold methodNameBreaches at member
  simp only [List.mem_append, List.mem_ite_nil_left, List.mem_singleton] at member
  obtain ⟨_, rfl⟩ | ⟨_, rfl⟩ := member
  · rfl
  · rfl

theorem subject_of_mem_targetName {kind : ReferenceKind} {name : String}
    (member : breach ∈ targetNameBreaches kind name) : breach.subject = .target := by
  unfold targetNameBreaches at member
  split at member
  · rw [List.mem_ite_nil_left, List.mem_singleton] at member
    rw [member.2]
    rfl
  · rw [List.mem_ite_nil_right, List.mem_singleton] at member
    rw [member.2]
    rfl

theorem subject_of_mem_handle {v : Version} {p : Pool} {kind : ReferenceKind} {target : PoolIndex}
    (member : breach ∈ handleBreaches v p kind target) :
    breach.subject = .reference ∨ breach.subject = .target := by
  unfold handleBreaches at member
  split at member
  · rw [List.mem_singleton.mp member]
    exact .inl rfl
  split at member
  · rw [List.mem_singleton.mp member]
    exact .inr rfl
  split at member
  · cases member
  split at member
  · cases member
  · exact .inr (subject_of_mem_targetName member)

theorem subject_of_mem_constant {v : Version} {p : Pool} {k : Constant}
    (member : breach ∈ constantBreaches v p k) :
    breach.subject ∈ [Subject.availability, .reference, .target] := by
  unfold constantBreaches at member
  simp only [List.mem_append, List.mem_ite_nil_right, List.mem_singleton] at member
  obtain ⟨_, rfl⟩ | broken := member
  · exact List.mem_cons_self
  · split at broken
    · simp [subject_of_mem_handle broken]
    · simp [subject_of_mem_reference broken]

theorem subject_of_mem_table {v : Version} {flags : Flags o}
    (member : breach ∈ tableBreaches v flags) :
    breach.subject = .window ∨ breach.subject = .combination := by
  rcases List.mem_append.mp member with window | exclusion
  · exact .inl (subject_of_mem_window window)
  · exact .inr (subject_of_mem_exclusion exclusion)

/-- The subjects of the rules for the header and for members. -/
def partSubjects : List Subject := [.reference, .window, .combination]

/-- The header, the fields and, but for the rules on names, the methods are checked in one way. -/
theorem subject_of_mem_part {p : Pool} {references : List Reference} {v : Version}
    {classFlags : ClassFlags} {flags : Flags o}
    (member : breach ∈ referenceBreaches p references ++ tableBreaches v flags ++
      classKindsBreaches v classFlags flags) : breach.subject ∈ partSubjects := by
  simp only [List.mem_append] at member
  obtain (reference | table) | kinds := member
  · simp [partSubjects, subject_of_mem_reference reference]
  · simp [partSubjects, subject_of_mem_table table]
  · simp [partSubjects, subject_of_mem_classKinds kinds]

theorem subject_of_mem_header {c : ClassFile} (member : breach ∈ headerBreaches c) :
    breach.subject ∈ partSubjects :=
  subject_of_mem_part member

theorem subject_of_mem_field {s : Setting} {f : Field} (member : breach ∈ fieldBreaches s f) :
    breach.subject ∈ partSubjects :=
  subject_of_mem_part member

theorem subject_of_mem_method {s : Setting} {m : Method} (member : breach ∈ methodBreaches s m) :
    breach.subject ∈ partSubjects := by
  rcases List.mem_append.mp member with part | name
  · rcases List.mem_append.mp part with front | kinds
    · exact subject_of_mem_part
        (List.mem_append_left (classKindsBreaches s.version s.flags m.flags) front)
    · have bound := (List.mem_ite_nil_left.mp kinds).2
      simp [partSubjects, subject_of_mem_classKinds bound]
  · split at name
    · simp [partSubjects, subject_of_mem_methodName name]
    · cases name

theorem ne_version_of_mem_part (part : breach.subject ∈ partSubjects) :
    breach.subject ≠ .version := by
  intro same
  rw [same] at part
  simp [partSubjects] at part

theorem blocks_numbered_eq {place : Nat → Location} {check : α → List Breach}
    {report : Location → List Breach} {xs : List α}
    (each : ∀ i x, xs[i]? = some x → report (place i) = check x) :
    blocks (fun e => place e.2) (fun e => check e.1) xs.zipIdx =
      blocks id report ((List.range xs.length).map place) := by
  have places : (List.range xs.length).map place = xs.zipIdx.map fun e => place e.2 := by
    rw [List.range_eq_range', ← List.zipIdx_map_snd 0 xs, List.map_map]
    rfl
  unfold blocks
  rw [places, List.flatMap_map]
  apply List.flatMap_congr
  intro e member
  rw [id, each e.2 e.1 (List.mk_mem_zipIdx_iff_getElem?.mp member)]

theorem map_range_eq {check : α → List Breach} {report : Nat → List Breach} {xs : List α}
    (each : ∀ i x, xs[i]? = some x → report i = check x) :
    (List.range xs.length).map report = xs.map check := by
  apply List.ext_getElem
  · simp
  intro i inside inside'
  rw [List.getElem_map, List.getElem_map, List.getElem_range]
  exact each i _ (List.getElem?_eq_getElem _)

/-! The breaches about one subject, picked out of a report. -/

theorem subject_of_mem_version {v : Version} (member : breach ∈ versionBreaches v) :
    breach.subject = .version := by
  rw [versionBreaches, List.mem_ite_nil_left, List.mem_singleton] at member
  rw [member.2]
  rfl

theorem filter_subject_eq_self {subject : Subject} {breaches : List Breach}
    (same : ∀ breach ∈ breaches, breach.subject = subject) :
    breaches.filter (·.subject = subject) = breaches :=
  List.filter_eq_self.mpr fun breach member => decide_eq_true (same breach member)

theorem filter_subject_eq_nil {subject : Subject} {breaches : List Breach}
    (other : ∀ breach ∈ breaches, breach.subject ≠ subject) :
    breaches.filter (·.subject = subject) = [] := by
  apply List.filter_eq_nil_iff.mpr
  intro breach member
  simpa using other breach member

theorem filter_other_subject {subject other : Subject} {breaches : List Breach}
    (same : ∀ breach ∈ breaches, breach.subject = other) (differ : other ≠ subject) :
    breaches.filter (·.subject = subject) = [] :=
  filter_subject_eq_nil fun breach member => same breach member ▸ differ

theorem filter_subject_constant {v : Version} {p : Pool} {k : Constant} {subject : Subject}
    (other : subject ∉ [Subject.availability, .reference, .target]) :
    (constantBreaches v p k).filter (·.subject = subject) = [] :=
  filter_subject_eq_nil fun _ found same => other (same ▸ subject_of_mem_constant found)

end Validation

/-- The reports on some members go with the members: a member has the same report wherever it
stands, and reports change places, come and go as the members do. -/
structure ReportsFollow {α : Type} (xs ys : List α) (reports reports' : List (List Breach)) :
    Prop where
  same : ∀ i j : Nat, ys[j]? = xs[i]? → reports'[j]? = reports[i]?
  permuted : ys.Perm xs → reports'.Perm reports
  inserted : ∀ i x, ys = xs.insertIdx i x → ∃ report, reports' = reports.insertIdx i report
  removed : ∀ i, ys = xs.eraseIdx i → reports' = reports.eraseIdx i

theorem reportsFollow_map {α : Type} (check : α → List Breach) (xs ys : List α) :
    ReportsFollow xs ys (xs.map check) (ys.map check) where
  same := by
    intro i j same
    rw [List.getElem?_map, List.getElem?_map, same]
  permuted := List.Perm.map check
  inserted := by
    rintro i x rfl
    exact ⟨check x, List.map_insertIdx check xs i x⟩
  removed := by
    rintro i rfl
    exact (List.eraseIdx_map check xs i).symm

namespace ClassFile

open Validation

variable {c d : ClassFile}

/-- The breaches that validation reports at a place, in order. -/
def reportAt (c : ClassFile) (location : Location) : List Breach :=
  (c.validate.filter (·.location = location)).map (·.breach)

/-- The violations at some places, place by place. -/
def reportsAt (c : ClassFile) (places : List Location) : List Violation :=
  blocks id c.reportAt places

def fieldReports (c : ClassFile) : List (List Breach) :=
  (List.range c.fields.length).map fun i => c.reportAt (.field i)

def methodReports (c : ClassFile) : List (List Breach) :=
  (List.range c.methods.length).map fun i => c.reportAt (.method i)

theorem reportAt_classFile (c : ClassFile) :
    c.reportAt .classFile = versionBreaches c.version ++ headerBreaches c := by
  unfold reportAt
  rw [validate_eq_blocks]
  simp [filter_blocks_of_absent]

theorem filter_poolEntry (fits : c.pool.slots.size ≤ Pool.capacity) {index : PoolIndex}
    {k : Constant} (found : c.pool.get index = .ok k) :
    c.validate.filter (·.location = .poolEntry index) =
      located (.poolEntry index) (constantBreaches c.version c.pool k) := by
  have apart : c.pool.entries.Pairwise fun a b => Location.poolEntry a.1 ≠ .poolEntry b.1 := by
    refine (Pool.entries_ascending fits).imp fun less same => ?_
    exact UInt16.ne_of_lt less (Location.poolEntry.inj same)
  have block := filter_blocks_of_mem (fun e : PoolIndex × Constant => .poolEntry e.1)
    (fun e => constantBreaches c.version c.pool e.2) apart (Pool.mem_entries_of_get found)
  rw [validate_eq_blocks]
  simp [filter_blocks_of_absent, block]

theorem filter_poolEntry_of_missing (fits : c.pool.slots.size ≤ Pool.capacity) {index : PoolIndex}
    {error : PoolError} (missing : c.pool.get index = .error error) :
    c.validate.filter (·.location = .poolEntry index) = [] := by
  have absent : ∀ e ∈ c.pool.entries, Location.poolEntry e.1 ≠ .poolEntry index := by
    intro e member same
    have found := (Pool.mem_entries_iff fits).mp member
    rw [Location.poolEntry.inj same, missing] at found
    cases found
  have block : (blocks (fun e => .poolEntry e.1)
      (fun e => constantBreaches c.version c.pool e.2) c.pool.entries).filter
        (·.location = .poolEntry index) = [] :=
    filter_blocks_of_absent absent
  rw [validate_eq_blocks]
  simp [filter_blocks_of_absent, block]

theorem reportAt_poolEntry (fits : c.pool.slots.size ≤ Pool.capacity) {index : PoolIndex}
    {k : Constant} (found : c.pool.get index = .ok k) :
    c.reportAt (.poolEntry index) = constantBreaches c.version c.pool k := by
  rw [reportAt, filter_poolEntry fits found, map_breach_located]

theorem reportAt_field {i : Nat} {f : Field} (found : c.fields[i]? = some f) :
    c.reportAt (.field i) = fieldBreaches c.setting f := by
  have block := filter_numbered (fun _ _ => Location.field.inj) (fieldBreaches c.setting) found
  unfold reportAt
  rw [validate_eq_blocks]
  simp [filter_blocks_of_absent, block]

theorem reportAt_method {i : Nat} {m : Method} (found : c.methods[i]? = some m) :
    c.reportAt (.method i) = methodBreaches c.setting m := by
  have block := filter_numbered (fun _ _ => Location.method.inj) (methodBreaches c.setting) found
  unfold reportAt
  rw [validate_eq_blocks]
  simp [filter_blocks_of_absent, block]

theorem fieldReports_eq (c : ClassFile) : c.fieldReports = c.fields.map (fieldBreaches c.setting) :=
  map_range_eq fun _ _ => reportAt_field

theorem methodReports_eq (c : ClassFile) :
    c.methodReports = c.methods.map (methodBreaches c.setting) :=
  map_range_eq fun _ _ => reportAt_method

theorem filter_version_validate (c : ClassFile) :
    c.validate.filter (·.breach.isUnsupportedVersion) =
      located .classFile (versionBreaches c.version) := by
  have subject (violation : Violation) : violation.breach.isUnsupportedVersion =
      decide (violation.breach.subject = .version) := by
    rw [Bool.eq_iff_iff, Breach.isUnsupportedVersion_iff, decide_eq_true_iff]
  rw [List.filter_congr fun violation _ => subject violation,
    filter_breach_validate c (·.subject = .version),
    filter_subject_eq_self fun _ => subject_of_mem_version,
    filter_subject_eq_nil fun _ found => ne_version_of_mem_part (subject_of_mem_header found),
    blocks_eq_nil_iff.mpr fun _ _ => filter_subject_constant (by decide),
    blocks_eq_nil_iff.mpr fun e _ => filter_subject_eq_nil fun _ found =>
      ne_version_of_mem_part (subject_of_mem_field found),
    blocks_eq_nil_iff.mpr fun e _ => filter_subject_eq_nil fun _ found =>
      ne_version_of_mem_part (subject_of_mem_method found)]
  simp

theorem filter_other_classFile (c : ClassFile) :
    (c.reportAt .classFile).filter (!·.isUnsupportedVersion) = headerBreaches c := by
  have header : (headerBreaches c).filter (!·.isUnsupportedVersion) = headerBreaches c := by
    rw [List.filter_eq_self]
    intro breach found
    rw [Bool.not_eq_true', Bool.eq_false_iff, Ne, Breach.isUnsupportedVersion_iff]
    exact ne_version_of_mem_part (subject_of_mem_header found)
  rw [reportAt_classFile, List.filter_append, filter_versionBreaches, header, List.nil_append]

theorem reportsAt_entries (fits : c.pool.slots.size ≤ Pool.capacity) :
    c.reportsAt (c.pool.entries.map fun e => .poolEntry e.1) =
      blocks (fun e => .poolEntry e.1) (fun e => constantBreaches c.version c.pool e.2)
        c.pool.entries := by
  unfold reportsAt blocks
  rw [List.flatMap_map]
  apply List.flatMap_congr
  intro e member
  rw [id, reportAt_poolEntry fits ((Pool.mem_entries_iff fits).mp member)]

theorem headerBreaches_congr (version : d.version = c.version) (pool : d.pool = c.pool)
    (flags : d.flags = c.flags) (thisClass : d.thisClass = c.thisClass)
    (superClass : d.superClass = c.superClass) (interfaces : d.interfaces = c.interfaces) :
    headerBreaches d = headerBreaches c := by
  cases c
  cases d
  dsimp only at version pool flags thisClass superClass interfaces
  subst version pool flags thisClass superClass interfaces
  rfl

/-- The violations outside of the members. -/
theorem filter_front (c : ClassFile) :
    c.validate.filter (!·.location.isMember) =
      located .classFile (versionBreaches c.version) ++
        blocks (fun e => .poolEntry e.1) (fun e => constantBreaches c.version c.pool e.2)
          c.pool.entries ++
        located .classFile (headerBreaches c) := by
  rw [c.filter_location_validate (!·.isMember)]
  simp [Location.isMember, blocks]

theorem validate_eq_front (c : ClassFile) :
    c.validate = c.validate.filter (!·.location.isMember) ++
      c.reportsAt ((List.range c.fields.length).map .field) ++
      c.reportsAt ((List.range c.methods.length).map .method) := by
  have fields : blocks (fun e => .field e.2) (fun e => fieldBreaches c.setting e.1)
      c.fields.zipIdx = blocks id c.reportAt ((List.range c.fields.length).map .field) :=
    blocks_numbered_eq fun _ _ => reportAt_field
  have methods : blocks (fun e => .method e.2) (fun e => methodBreaches c.setting e.1)
      c.methods.zipIdx = blocks id c.reportAt ((List.range c.methods.length).map .method) :=
    blocks_numbered_eq fun _ _ => reportAt_method
  rw [filter_front, reportsAt, reportsAt, ← fields, ← methods]
  exact c.validate_eq_blocks

/-- Violations are reported in the order version, constants by index, header, fields, methods. Each
member has a block of its own, which it takes along to wherever it stands. -/
theorem validate_in_order {c : ClassFile} (built : c.pool.Reachable) :
    c.validate.filter (·.breach.isUnsupportedVersion) =
      (if c.version.isSupported then []
        else [⟨.classFile, .unsupportedClassVersion c.version⟩]) ∧
    (c.pool.entries.map (·.1)).Pairwise (· < ·) ∧
    c.validate = c.validate.filter (·.breach.isUnsupportedVersion) ++
      c.reportsAt (c.pool.entries.map fun e => .poolEntry e.1) ++
      located .classFile ((c.reportAt .classFile).filter (!·.isUnsupportedVersion)) ++
      c.reportsAt ((List.range c.fields.length).map .field) ++
      c.reportsAt ((List.range c.methods.length).map .method) ∧
    ∀ d : ClassFile, d.version = c.version → d.pool = c.pool → d.flags = c.flags →
      ReportsFollow c.fields d.fields c.fieldReports d.fieldReports ∧
      ReportsFollow c.methods d.methods c.methodReports d.methodReports ∧
      (d.thisClass = c.thisClass → d.superClass = c.superClass → d.interfaces = c.interfaces →
        d.validate = c.validate.filter (!·.location.isMember) ++
          d.reportsAt ((List.range d.fields.length).map .field) ++
          d.reportsAt ((List.range d.methods.length).map .method)) := by
  have fits := built.wellFormed.size_le
  refine ⟨?_, List.pairwise_map.mpr (Pool.entries_ascending fits), ?_, ?_⟩
  · rw [filter_version_validate, versionBreaches]
    split
    · rfl
    · rfl
  · rw [filter_version_validate, reportsAt_entries fits, filter_other_classFile, ← filter_front]
    exact c.validate_eq_front
  · intro d version pool flags
    have setting : d.setting = c.setting := by
      unfold ClassFile.setting
      rw [version, pool, flags]
    refine ⟨?_, ?_, ?_⟩
    · rw [fieldReports_eq, fieldReports_eq, setting]
      exact reportsFollow_map _ _ _
    · rw [methodReports_eq, methodReports_eq, setting]
      exact reportsFollow_map _ _ _
    · intro thisClass superClass interfaces
      have header := headerBreaches_congr version pool flags thisClass superClass interfaces
      have front : d.validate.filter (!·.location.isMember) =
          c.validate.filter (!·.location.isMember) := by
        rw [filter_front, filter_front, version, pool, header]
      rw [← front]
      exact d.validate_eq_front

/-- Something is wrong with the version, with a constant, with the header and with each member. -/
def wrongThroughout : ClassFile where
  version := ⟨44, 0⟩
  pool := .ofConstants [.utf8 (.text "A"), .classRef 9, .utf8 (.text "run"), .utf8 (.text "()V")]
  flags := ClassFlags.accFinal ∪ ClassFlags.accAbstract
  thisClass := 2
  superClass := 0
  interfaces := []
  fields := [⟨FieldFlags.accSynthetic, 3, 4, []⟩]
  methods := [⟨MethodFlags.accPublic, 2, 4, []⟩, ⟨MethodFlags.accBridge, 3, 4, []⟩]
  attributes := []

/-- The same with its two methods in the other order. -/
def wrongInReverse : ClassFile :=
  { wrongThroughout with methods := wrongThroughout.methods.reverse }

theorem validate_wrongInReverse :
    wrongThroughout.validate.map (·.location) =
      [.classFile, .poolEntry 2, .classFile, .classFile, .field 0, .method 0, .method 1] ∧
    wrongInReverse.validate = wrongThroughout.validate.filter (!·.location.isMember) ++
      wrongInReverse.reportsAt [.field 0] ++ wrongInReverse.reportsAt [.method 0, .method 1] ∧
    wrongInReverse.methodReports[0]? = wrongThroughout.methodReports[1]? ∧
    wrongInReverse.methodReports[1]? = wrongThroughout.methodReports[0]? := by
  have built : wrongThroughout.pool.Reachable :=
    Pool.reachable_iff_wellFormed.mpr (Pool.wellFormed_iff.mpr ⟨_, rfl, by decide⟩)
  obtain ⟨_, _, _, change⟩ := validate_in_order built
  obtain ⟨_, methods, whole⟩ := change wrongInReverse rfl rfl rfl
  exact ⟨rfl, whole rfl rfl rfl, methods.same 1 0 rfl, methods.same 0 1 rfl⟩

end ClassFile

end ClassFormat
