import ClassFormat.Proofs.Pool.History
import ClassFormat.Proofs.Rules.KnownFlags
import ClassFormat.Proofs.Validation.Reports

/-!
Class files that are changed part by part. As long as texts stay what they are, flags keep their
bits with a name and 0 alone becomes 0, validation reports the same but for the indices in its
errors: it looks at the pool only by following indices. Main statements: `behindPool_classFile` and
`map_renamed_entries`.
-/
namespace ClassFormat

/-- How each part of a class file is changed. -/
structure Recasting where
  index : PoolIndex → PoolIndex
  string : JavaString → JavaString
  integer : Int32 → Int32
  float : Binary32 → Binary32
  long : Int64 → Int64
  double : Binary64 → Binary64
  bootstrap : UInt16 → UInt16
  flags : (o : FlagOwner) → Flags o → Flags o
  attributes : List Attribute → List Attribute

namespace Recasting

variable (r : Recasting)

/-- The change spares what the rules look at. -/
structure Lawful : Prop where
  text : ∀ s, (r.string s).text? = s.text?
  flags : ∀ (o : FlagOwner) (a : Flags o), (r.flags o a).SameKnown a
  zero : ∀ i, r.index i = 0 ↔ i = 0

def constant : Constant → Constant
  | .utf8 value => .utf8 (r.string value)
  | .integer value => .integer (r.integer value)
  | .float value => .float (r.float value)
  | .long value => .long (r.long value)
  | .double value => .double (r.double value)
  | .classRef name => .classRef (r.index name)
  | .stringRef value => .stringRef (r.index value)
  | .fieldRef owner nameType => .fieldRef (r.index owner) (r.index nameType)
  | .methodRef owner nameType => .methodRef (r.index owner) (r.index nameType)
  | .interfaceMethodRef owner nameType => .interfaceMethodRef (r.index owner) (r.index nameType)
  | .nameAndType name descriptor => .nameAndType (r.index name) (r.index descriptor)
  | .methodHandle kind target => .methodHandle kind (r.index target)
  | .methodType descriptor => .methodType (r.index descriptor)
  | .dynamic bootstrap nameType => .dynamic (r.bootstrap bootstrap) (r.index nameType)
  | .invokeDynamic bootstrap nameType => .invokeDynamic (r.bootstrap bootstrap) (r.index nameType)
  | .moduleRef name => .moduleRef (r.index name)
  | .packageRef name => .packageRef (r.index name)

def member {o : FlagOwner} (m : Member o) : Member o where
  flags := r.flags o m.flags
  name := r.index m.name
  descriptor := r.index m.descriptor
  attributes := r.attributes m.attributes

/-- The pool, for which there is more than one choice, is given. -/
def classFile (c : ClassFile) (pool : Pool) : ClassFile where
  version := c.version
  pool := pool
  flags := r.flags .classFile c.flags
  thisClass := r.index c.thisClass
  superClass := r.index c.superClass
  interfaces := c.interfaces.map r.index
  fields := c.fields.map r.member
  methods := c.methods.map r.member
  attributes := r.attributes c.attributes

@[simp] theorem kind_constant (k : Constant) : (r.constant k).kind = k.kind := by
  cases k <;> rfl

end Recasting

def Reference.renamed (s : PoolIndex → PoolIndex) (reference : Reference) : Reference :=
  { reference with index := s reference.index }

def PoolError.renamed (s : PoolIndex → PoolIndex) : PoolError → PoolError
  | invalidIndex index => invalidIndex (s index)
  | kindMismatch index expected found => kindMismatch (s index) expected found
  | overflow => overflow
  | widthMismatch index current replacement => widthMismatch (s index) current replacement

def Location.renamed (s : PoolIndex → PoolIndex) : Location → Location
  | poolEntry index => poolEntry (s index)
  | classFile => classFile
  | field position => field position
  | method position => method position

/-- Of all that is reported as a breach, errors alone have indices. -/
def Breach.renamed (s : PoolIndex → PoolIndex) : Breach → Breach
  | badReference role error => badReference role (error.renamed s)
  | breach => breach

def Violation.renamed (s : PoolIndex → PoolIndex) (violation : Violation) : Violation :=
  ⟨violation.location.renamed s, violation.breach.renamed s⟩

theorem Breach.renamed_of_ne {s : PoolIndex → PoolIndex} {breach : Breach}
    (other : breach.subject ≠ .reference) : breach.renamed s = breach := by
  cases breach with
  | badReference role error => exact absurd rfl other
  | _ => rfl

theorem Recasting.references_constant (r : Recasting) (k : Constant) :
    (r.constant k).references = k.references.map (·.renamed r.index) := by
  cases k <;> rfl

namespace Pool

/-- The second pool has the constants of the first, changed, at the changed indices. -/
structure Becomes (r : Recasting) (p q : Pool) : Prop where
  found : ∀ index k, p.get index = .ok k → q.get (r.index index) = .ok (r.constant k)
  missing : ∀ index e, p.get index = .error e → ∃ e', q.get (r.index index) = .error e'

variable {r : Recasting} {p q : Pool}

theorem eq_invalidIndex_of_get {index : PoolIndex} {e : PoolError}
    (missing : p.get index = .error e) : e = .invalidIndex index := by
  have absent : ∀ k, p.get index ≠ .ok k := by
    intro k found
    rw [missing] at found
    cases found
  rw [get_eq_error absent] at missing
  exact (Except.error.inj missing).symm

theorem Becomes.get (h : p.Becomes r q) (index : PoolIndex) :
    q.get (r.index index) = ((p.get index).map r.constant).mapError (·.renamed r.index) := by
  cases found : p.get index with
  | ok k => exact h.found index k found
  | error e =>
    obtain ⟨e', missing⟩ := h.missing index e found
    rw [missing, eq_invalidIndex_of_get found, eq_invalidIndex_of_get missing]
    rfl

theorem Becomes.resolve (h : p.Becomes r q) (index : PoolIndex) (kind : ConstantKind) :
    q.resolve (r.index index) kind =
      ((p.resolve index kind).map r.constant).mapError (·.renamed r.index) := by
  unfold Pool.resolve
  rw [h.get]
  cases p.get index with
  | error e => rfl
  | ok k =>
    by_cases same : k.kind = kind
    · simp [Except.map, Except.mapError, same]
    · simp [Except.map, Except.mapError, same, PoolError.renamed]

theorem Becomes.string (h : p.Becomes r q) (index : PoolIndex) :
    q.string (r.index index) = ((p.string index).map r.string).mapError (·.renamed r.index) := by
  unfold Pool.string
  rw [h.get]
  cases p.get index with
  | error e => rfl
  | ok k => cases k <;> rfl

theorem Becomes.className (h : p.Becomes r q) (index : PoolIndex) :
    q.className (r.index index) =
      ((p.className index).map r.string).mapError (·.renamed r.index) := by
  unfold Pool.className
  rw [h.get]
  cases p.get index with
  | error e => rfl
  | ok k =>
    cases k with
    | classRef name => exact h.string name
    | _ => rfl

theorem Becomes.memberName? (h : p.Becomes r q) (lawful : r.Lawful) (k : Constant) :
    q.memberName? (r.constant k) = p.memberName? k := by
  -- Fields and methods are followed to their names in the same way.
  have follow (owner nameType : PoolIndex) :
      q.memberName? (r.constant (.fieldRef owner nameType)) =
        p.memberName? (.fieldRef owner nameType) := by
    unfold Recasting.constant Pool.memberName?
    dsimp only
    rw [h.get]
    cases p.get nameType with
    | error e => rfl
    | ok k =>
      cases k with
      | nameAndType name descriptor =>
        simp only [Except.map, Except.mapError, Recasting.constant]
        rw [h.string]
        cases p.string name with
        | error e => rfl
        | ok s => exact lawful.text s
      | _ => rfl
  cases k with
  | fieldRef owner nameType | methodRef owner nameType | interfaceMethodRef owner nameType =>
    exact follow owner nameType
  | _ => rfl

end Pool

namespace Validation

variable {r : Recasting} {p q : Pool} {v : Version} {o : FlagOwner}

/-- Where no reference is at fault, no index is named. -/
theorem map_renamed_of_ne {s : PoolIndex → PoolIndex} {breaches : List Breach}
    (other : ∀ breach ∈ breaches, breach.subject ≠ .reference) :
    breaches.map (·.renamed s) = breaches := by
  calc breaches.map (·.renamed s)
    _ = breaches.map id := List.map_congr_left fun breach member =>
      Breach.renamed_of_ne (other breach member)
    _ = breaches := List.map_id breaches

theorem map_renamed_located (s : PoolIndex → PoolIndex) (location : Location)
    (breaches : List Breach) :
    (located location breaches).map (·.renamed s) =
      located (location.renamed s) (breaches.map (·.renamed s)) := by
  unfold located
  rw [List.map_map, List.map_map]
  rfl

theorem referenceBreaches_becomes (h : p.Becomes r q) (references : List Reference) :
    referenceBreaches q (references.map (·.renamed r.index)) =
      (referenceBreaches p references).map (·.renamed r.index) := by
  unfold referenceBreaches
  rw [List.filterMap_map, List.map_filterMap]
  apply List.filterMap_congr
  intro reference _
  simp only [Function.comp_apply, Reference.renamed]
  rw [h.resolve]
  cases p.resolve reference.index reference.expected with
  | error e => rfl
  | ok k => rfl

theorem handleBreaches_becomes (h : p.Becomes r q) (lawful : r.Lawful) (kind : ReferenceKind)
    (target : PoolIndex) :
    handleBreaches v q kind (r.index target) =
      (handleBreaches v p kind target).map (·.renamed r.index) := by
  unfold handleBreaches
  rw [h.get]
  cases p.get target with
  | error e => rfl
  | ok k =>
    simp only [Except.map, Except.mapError]
    rw [r.kind_constant, h.memberName? lawful]
    split
    · rfl
    split
    · rfl
    split
    · rfl
    · rename_i name _
      have other : ∀ breach ∈ targetNameBreaches kind name, breach.subject ≠ .reference := by
        intro breach member
        simp [subject_of_mem_targetName member]
      exact (map_renamed_of_ne other).symm

theorem constantBreaches_becomes (h : p.Becomes r q) (lawful : r.Lawful) (k : Constant) :
    constantBreaches v q (r.constant k) =
      (constantBreaches v p k).map (·.renamed r.index) := by
  have references := referenceBreaches_becomes h k.references
  rw [← r.references_constant] at references
  unfold constantBreaches
  dsimp only
  rw [r.kind_constant, List.map_append]
  congr 1
  · split
    · rfl
    · rfl
  · cases k with
    | methodHandle kind target => exact handleBreaches_becomes h lawful kind target
    | _ => exact references

theorem tableBreaches_becomes (lawful : r.Lawful) (flags : Flags o) :
    tableBreaches v (r.flags o flags) = (tableBreaches v flags).map (·.renamed r.index) := by
  rw [tableBreaches_of_sameKnown (lawful.flags o flags), map_renamed_of_ne]
  intro breach member same
  have subject := subject_of_mem_table member
  rw [same] at subject
  simp at subject

theorem classKindsBreaches_becomes (lawful : r.Lawful) (classFlags : ClassFlags)
    (flags : Flags o) :
    classKindsBreaches v (r.flags .classFile classFlags) (r.flags o flags) =
      (classKindsBreaches v classFlags flags).map (·.renamed r.index) := by
  rw [classKindsBreaches_of_sameKnown (lawful.flags .classFile classFlags) (lawful.flags o flags),
    map_renamed_of_ne]
  intro breach member
  simp [subject_of_mem_classKinds member]

theorem methodNameBreaches_becomes (lawful : r.Lawful) (name : String) (flags : MethodFlags) :
    methodNameBreaches v name (r.flags .method flags) =
      (methodNameBreaches v name flags).map (·.renamed r.index) := by
  rw [methodNameBreaches_of_sameKnown (lawful.flags .method flags), map_renamed_of_ne]
  intro breach member
  simp [subject_of_mem_methodName member]

theorem methodName?_becomes (h : p.Becomes r q) (lawful : r.Lawful) (m : Method) :
    methodName? q (r.member m) = methodName? p m := by
  unfold methodName? Member.nameIn Recasting.member
  dsimp only
  rw [h.string]
  cases p.string m.name with
  | error e => rfl
  | ok s => exact lawful.text s

/-- The rules that the header, the fields and the methods share. -/
theorem commonBreaches_becomes (h : p.Becomes r q) (lawful : r.Lawful)
    (references : List Reference) (flags : Flags o) :
    referenceBreaches q (references.map (·.renamed r.index)) ++
        tableBreaches v (r.flags o flags) =
      (referenceBreaches p references ++ tableBreaches v flags).map (·.renamed r.index) := by
  rw [referenceBreaches_becomes h, tableBreaches_becomes lawful, List.map_append]

variable {c : ClassFile}

theorem mayLackSuperClass_classFile (h : c.pool.Becomes r q) (lawful : r.Lawful) :
    mayLackSuperClass (r.classFile c q) = mayLackSuperClass c := by
  have named : (r.classFile c q).thisClassName =
      (c.thisClassName.map r.string).mapError (·.renamed r.index) :=
    h.className c.thisClass
  have module : (r.classFile c q).isModule = c.isModule :=
    (lawful.flags .classFile c.flags).contains (by decide)
  unfold mayLackSuperClass
  rw [named, module]
  cases c.thisClassName with
  | error e => rfl
  | ok s =>
    simp only [Except.map, Except.mapError, JavaString.isText]
    rw [lawful.text]

theorem headerReferences_classFile (h : c.pool.Becomes r q) (lawful : r.Lawful) :
    headerReferences (r.classFile c q) = (headerReferences c).map (·.renamed r.index) := by
  have superClass : decide ((r.classFile c q).superClass = 0) = decide (c.superClass = 0) :=
    decide_eq_decide.mpr (lawful.zero c.superClass)
  unfold headerReferences
  rw [mayLackSuperClass_classFile h lawful, superClass]
  simp only [Recasting.classFile, List.map_append, List.map_cons, List.map_map]
  congr 2
  split
  · rfl
  · rfl

theorem headerBreaches_classFile (h : c.pool.Becomes r q) (lawful : r.Lawful) :
    headerBreaches (r.classFile c q) = (headerBreaches c).map (·.renamed r.index) := by
  have common := commonBreaches_becomes (v := c.version) h lawful (headerReferences c) c.flags
  have kinds := classKindsBreaches_becomes (v := c.version) lawful c.flags c.flags
  unfold headerBreaches
  rw [headerReferences_classFile h lawful, List.map_append]
  exact congrArg₂ _ common kinds

theorem fieldBreaches_member (h : c.pool.Becomes r q) (lawful : r.Lawful) (f : Field) :
    fieldBreaches (r.classFile c q).setting (r.member f) =
      (fieldBreaches c.setting f).map (·.renamed r.index) := by
  have common := commonBreaches_becomes (v := c.version) h lawful (memberReferences f) f.flags
  have kinds := classKindsBreaches_becomes (v := c.version) lawful c.flags f.flags
  unfold fieldBreaches
  rw [List.map_append]
  exact congrArg₂ _ common kinds

theorem methodBreaches_member (h : c.pool.Becomes r q) (lawful : r.Lawful) (m : Method) :
    methodBreaches (r.classFile c q).setting (r.member m) =
      (methodBreaches c.setting m).map (·.renamed r.index) := by
  have common := commonBreaches_becomes (v := c.version) h lawful (memberReferences m) m.flags
  have kinds := classKindsBreaches_becomes (v := c.version) lawful c.flags m.flags
  have name : methodName? (r.classFile c q).setting.pool (r.member m) =
      methodName? c.setting.pool m :=
    methodName?_becomes h lawful m
  unfold methodBreaches
  rw [name, List.map_append, List.map_append]
  dsimp only
  congr 1
  · apply congrArg₂ _ common
    split
    · rfl
    · exact kinds
  · split
    · exact methodNameBreaches_becomes lawful _ m.flags
    · rfl

theorem map_renamed_blocks {α β : Type} {s : PoolIndex → PoolIndex} {place : α → Location}
    {place' : β → Location} {check : α → List Breach} {check' : β → List Breach} {f : α → β}
    (places : ∀ x, place' (f x) = (place x).renamed s)
    (each : ∀ x, check' (f x) = (check x).map (·.renamed s)) (items : List α) :
    blocks place' check' (items.map f) = (blocks place check items).map (·.renamed s) := by
  unfold blocks
  rw [List.flatMap_map, List.map_flatMap]
  apply List.flatMap_congr
  intro x _
  rw [places, each, map_renamed_located]

theorem map_renamed_entries (h : p.Becomes r q) (lawful : r.Lawful) :
    blocks (fun e => .poolEntry e.1) (fun e => constantBreaches v q e.2)
        (p.entries.map fun e => (r.index e.1, r.constant e.2)) =
      (entryViolations v p).map (·.renamed r.index) := by
  apply map_renamed_blocks
  · intro e
    rfl
  · intro e
    exact constantBreaches_becomes h lawful e.2

theorem map_renamed_numbered {s : PoolIndex → PoolIndex} (place : Nat → Location)
    (fixed : ∀ i, (place i).renamed s = place i) {check check' : Member o → List Breach}
    {f : Member o → Member o} (each : ∀ m, check' (f m) = (check m).map (·.renamed s))
    (members : List (Member o)) :
    blocks (fun e => place e.2) (fun e => check' e.1) (members.map f).zipIdx =
      (blocks (fun e => place e.2) (fun e => check e.1) members.zipIdx).map (·.renamed s) := by
  rw [List.zipIdx_map]
  apply map_renamed_blocks
  · intro e
    exact (fixed e.2).symm
  · intro e
    exact each e.1

end Validation

open Validation

theorem Recasting.behindPool_classFile {r : Recasting} {c : ClassFile} {q : Pool}
    (h : c.pool.Becomes r q) (lawful : r.Lawful) :
    (r.classFile c q).behindPool = c.behindPool.map (·.renamed r.index) := by
  have fields := map_renamed_numbered .field (fun _ => rfl) (fieldBreaches_member h lawful) c.fields
  have methods := map_renamed_numbered .method (fun _ => rfl) (methodBreaches_member h lawful)
    c.methods
  unfold ClassFile.behindPool
  rw [List.map_append, List.map_append, headerBreaches_classFile h lawful, map_renamed_located]
  exact congrArg₂ _ (congrArg₂ _ rfl fields) methods

end ClassFormat
