import ClassFormat.Proofs.Pool.History
import ClassFormat.Proofs.Validation.Reports

/-!
The cross-references of a class file: all indices in it, with what they stand for. Validation
reports those that do not lead where they should, each of them once. Main statement:
`validate_references`.
-/
namespace ClassFormat

namespace ReferenceRole

/-- All roles, in the order in which the references of one constant are looked at. -/
def all : List ReferenceRole :=
  [name, descriptor, owner, nameAndType, string, target, thisClass, superClass, interface]

theorem mem_all (role : ReferenceRole) : role ∈ all := by
  cases role <;> decide

/-- The kind of the constant that an index of the role stands for. What a method handle refers to
has only to be there, as far as the reference is concerned. -/
def required : ReferenceRole → Option ConstantKind
  | name | descriptor | string => some .utf8
  | owner | thisClass | superClass | interface => some .classRef
  | nameAndType => some .nameAndType
  | target => none

end ReferenceRole

/-- An index and what it is used for. -/
structure Use where
  role : ReferenceRole
  index : PoolIndex
  deriving DecidableEq, Repr

/-- What is found under the index if it is looked up as its role requires. -/
def Use.lookup (p : Pool) (use : Use) : Except PoolError Constant :=
  match use.role.required with
  | some kind => p.resolve use.index kind
  | none => p.get use.index

def Use.breach? (p : Pool) (use : Use) : Option Breach :=
  match use.lookup p with
  | .ok _ => none
  | .error e => some (.badReference use.role e)

/-- A use of an index, and the place of what it belongs to. -/
structure CrossReference where
  location : Location
  use : Use
  deriving DecidableEq, Repr

def CrossReference.violation? (p : Pool) (reference : CrossReference) : Option Violation :=
  (reference.use.breach? p).map (⟨reference.location, ·⟩)

/-- The index that a constant has for a role. -/
def Constant.indexFor? : Constant → ReferenceRole → Option PoolIndex
  | classRef name, .name | moduleRef name, .name | packageRef name, .name
  | nameAndType name _, .name => some name
  | stringRef value, .string => some value
  | nameAndType _ descriptor, .descriptor | methodType descriptor, .descriptor => some descriptor
  | fieldRef owner _, .owner | methodRef owner _, .owner
  | interfaceMethodRef owner _, .owner => some owner
  | fieldRef _ nameType, .nameAndType | methodRef _ nameType, .nameAndType
  | interfaceMethodRef _ nameType, .nameAndType | dynamic _ nameType, .nameAndType
  | invokeDynamic _ nameType, .nameAndType => some nameType
  | methodHandle _ target, .target => some target
  | _, _ => none

def Constant.uses (k : Constant) : List Use :=
  ReferenceRole.all.filterMap fun role => (k.indexFor? role).map (⟨role, ·⟩)

theorem Constant.mem_uses_iff {k : Constant} {use : Use} :
    use ∈ k.uses ↔ k.indexFor? use.role = some use.index := by
  simp only [uses, List.mem_filterMap, Option.map_eq_some_iff]
  constructor
  · rintro ⟨role, _, index, held, rfl⟩
    exact held
  · intro held
    exact ⟨use.role, ReferenceRole.mem_all use.role, use.index, held, rfl⟩

def Reference.use (r : Reference) : Use := ⟨r.role, r.index⟩

def Member.uses {o : FlagOwner} (m : Member o) : List Use :=
  [⟨.name, m.name⟩, ⟨.descriptor, m.descriptor⟩]

theorem Pool.hasClass_iff {p : Pool} {index : PoolIndex} {value : String} :
    p.HasClass index value ↔ (p.className index).toOption = some (.text value) := by
  have named : p.HasClass index value ↔ p.className index = .ok (.text value) := by
    rw [className_eq_ok_iff]
    simp only [HasClass, HasText, string_eq_ok_iff]
  rw [named]
  cases p.className index with
  | ok s => simp [Except.toOption]
  | error e => simp [Except.toOption]

instance (p : Pool) (index : PoolIndex) (value : String) : Decidable (p.HasClass index value) :=
  decidable_of_iff _ Pool.hasClass_iff.symm

namespace ClassFile

/-- The uses of the header. An index of 0 for the super class stands for none in modules and in the
root of all classes, and is broken in all others. -/
def headerUses (c : ClassFile) : List Use :=
  ⟨.thisClass, c.thisClass⟩ ::
    (if c.superClass = 0 ∧
        (c.pool.HasClass c.thisClass objectName ∨ ClassFlags.accModule ⊆ c.flags) then []
      else [⟨.superClass, c.superClass⟩]) ++
    c.interfaces.map (⟨.interface, ·⟩)

/-- All references by index, but for those in attributes. -/
def crossReferences (c : ClassFile) : List CrossReference :=
  c.pool.entries.flatMap (fun e => e.2.uses.map (⟨.poolEntry e.1, ·⟩)) ++
    c.headerUses.map (⟨.classFile, ·⟩) ++
    c.fields.zipIdx.flatMap (fun e => e.1.uses.map (⟨.field e.2, ·⟩)) ++
    c.methods.zipIdx.flatMap (fun e => e.1.uses.map (⟨.method e.2, ·⟩))

end ClassFile

namespace Validation

variable {α : Type} {o : FlagOwner} {v : Version} {p : Pool}

/-- Where the roles of references tell the kinds that these require. -/
theorem referenceBreaches_eq {references : List Reference}
    (required : ∀ r ∈ references, r.role.required = some r.expected) :
    referenceBreaches p references = (references.map (·.use)).filterMap (Use.breach? p) := by
  unfold referenceBreaches
  rw [List.filterMap_map]
  apply List.filterMap_congr
  intro r member
  have lookup : r.use.lookup p = p.resolve r.index r.expected := by
    rw [Use.lookup, Reference.use, required r member]
  rw [Function.comp_apply, Use.breach?, lookup]
  rfl

theorem required_of_mem_constant {k : Constant} :
    ∀ r ∈ k.references, r.role.required = some r.expected := by
  cases k <;> simp [Constant.references, ReferenceRole.required]

theorem required_of_mem_member {m : Member o} :
    ∀ r ∈ memberReferences m, r.role.required = some r.expected := by
  simp [memberReferences, ReferenceRole.required]

theorem required_of_mem_header {c : ClassFile} :
    ∀ r ∈ headerReferences c, r.role.required = some r.expected := by
  intro r member
  simp only [headerReferences, List.mem_append, List.mem_cons, List.mem_ite_nil_left,
    List.mem_map, List.not_mem_nil, or_false] at member
  obtain (rfl | ⟨_, rfl⟩) | ⟨index, _, rfl⟩ := member
  · rfl
  · rfl
  · rfl

theorem map_use_header (c : ClassFile) : (headerReferences c).map (·.use) = c.headerUses := by
  have lacks : (decide (c.superClass = 0) && mayLackSuperClass c) = true ↔ c.superClass = 0 ∧
      (c.pool.HasClass c.thisClass ClassFile.objectName ∨ ClassFlags.accModule ⊆ c.flags) := by
    rw [Bool.and_eq_true, decide_eq_true_iff, mayLackSuperClass_iff]
  have superClass : (if decide (c.superClass = 0) && mayLackSuperClass c then []
        else [(⟨.superClass, c.superClass, .classRef⟩ : Reference)]).map (·.use) =
      if c.superClass = 0 ∧
        (c.pool.HasClass c.thisClass ClassFile.objectName ∨ ClassFlags.accModule ⊆ c.flags) then []
      else [⟨.superClass, c.superClass⟩] := by
    by_cases none : c.superClass = 0 ∧
        (c.pool.HasClass c.thisClass ClassFile.objectName ∨ ClassFlags.accModule ⊆ c.flags)
    · rw [if_pos none, if_pos (lacks.mpr none)]
      rfl
    · rw [if_neg none, if_neg fun lack => none (lacks.mp lack)]
      rfl
  unfold headerReferences ClassFile.headerUses
  rw [List.map_append, List.map_cons, superClass, List.map_map]
  rfl

theorem filter_reference_handle (kind : ReferenceKind) (target : PoolIndex) :
    (handleBreaches v p kind target).filter (·.subject = .reference) =
      [(⟨.target, target⟩ : Use)].filterMap (Use.breach? p) := by
  unfold handleBreaches
  cases found : p.get target with
  | error e => simp [Use.breach?, Use.lookup, ReferenceRole.required, found, Breach.subject]
  | ok k =>
    have leads : [(⟨.target, target⟩ : Use)].filterMap (Use.breach? p) = [] := by
      simp [Use.breach?, Use.lookup, ReferenceRole.required, found]
    rw [leads]
    apply filter_subject_eq_nil
    intro breach member same
    dsimp only at member
    split at member
    · rw [List.mem_singleton.mp member] at same
      cases same
    split at member
    · cases member
    split at member
    · cases member
    · rw [subject_of_mem_targetName member] at same
      cases same

theorem filter_reference_constant (k : Constant) :
    (constantBreaches v p k).filter (·.subject = .reference) =
      k.uses.filterMap (Use.breach? p) := by
  have availability (breach : Breach) (member : breach ∈ (if v < Rules.minimumVersion k.kind then
      [Breach.constantKindUnavailable k.kind (Rules.minimumVersion k.kind)] else [])) :
      breach.subject = .availability := by
    rw [List.mem_ite_nil_right, List.mem_singleton] at member
    rw [member.2]
    rfl
  unfold constantBreaches
  dsimp only
  rw [List.filter_append, filter_other_subject availability (by decide), List.nil_append]
  cases k with
  | methodHandle kind target => exact filter_reference_handle kind target
  | _ =>
    dsimp only
    rw [filter_subject_eq_self fun _ => subject_of_mem_reference,
      referenceBreaches_eq required_of_mem_constant]
    rfl

/-- Behind the references, the rules for flags name no index. -/
theorem filter_reference_append {references : List Reference} {flagBreaches : List Breach}
    (other : ∀ breach ∈ flagBreaches, breach.subject = .window ∨ breach.subject = .combination) :
    (referenceBreaches p references ++ flagBreaches).filter (·.subject = .reference) =
      referenceBreaches p references := by
  have none (breach : Breach) (member : breach ∈ flagBreaches) : breach.subject ≠ .reference := by
    intro same
    have subject := other breach member
    rw [same] at subject
    simp at subject
  rw [List.filter_append, filter_subject_eq_self fun _ => subject_of_mem_reference,
    filter_subject_eq_nil none, List.append_nil]

theorem subject_of_mem_flags {breach : Breach} {classFlags : ClassFlags} {flags : Flags o}
    (member : breach ∈ tableBreaches v flags ++ classKindsBreaches v classFlags flags) :
    breach.subject = .window ∨ breach.subject = .combination := by
  rcases List.mem_append.mp member with table | kinds
  · exact subject_of_mem_table table
  · exact .inr (subject_of_mem_classKinds kinds)

theorem filter_reference_header (c : ClassFile) :
    (headerBreaches c).filter (·.subject = .reference) =
      c.headerUses.filterMap (Use.breach? c.pool) := by
  unfold headerBreaches
  rw [List.append_assoc, filter_reference_append fun _ => subject_of_mem_flags,
    referenceBreaches_eq required_of_mem_header, map_use_header]

theorem filter_reference_field (s : Setting) (f : Field) :
    (fieldBreaches s f).filter (·.subject = .reference) =
      f.uses.filterMap (Use.breach? s.pool) := by
  unfold fieldBreaches
  rw [List.append_assoc, filter_reference_append fun _ => subject_of_mem_flags,
    referenceBreaches_eq required_of_mem_member]
  rfl

theorem filter_reference_method (s : Setting) (m : Method) :
    (methodBreaches s m).filter (·.subject = .reference) =
      m.uses.filterMap (Use.breach? s.pool) := by
  unfold methodBreaches
  dsimp only
  rw [List.append_assoc, List.append_assoc, filter_reference_append,
    referenceBreaches_eq required_of_mem_member]
  · rfl
  intro breach member
  rcases List.mem_append.mp member with table | rest
  · exact subject_of_mem_table table
  rcases List.mem_append.mp rest with kinds | names
  · exact .inr (subject_of_mem_classKinds (List.mem_ite_nil_left.mp kinds).2)
  · split at names
    · exact .inr (subject_of_mem_methodName names)
    · cases names

/-- The violations of a part of a class file are those of its uses. -/
theorem located_uses (p : Pool) (location : Location) (uses : List Use) :
    located location (uses.filterMap (Use.breach? p)) =
      (uses.map (⟨location, ·⟩)).filterMap (CrossReference.violation? p) := by
  unfold located
  rw [List.map_filterMap, List.filterMap_map]
  rfl

theorem blocks_uses (p : Pool) (place : α → Location) (uses : α → List Use) (items : List α) :
    blocks place (fun x => (uses x).filterMap (Use.breach? p)) items =
      (items.flatMap fun x => (uses x).map (⟨place x, ·⟩)).filterMap
        (CrossReference.violation? p) := by
  unfold blocks
  rw [List.filterMap_flatMap]
  apply List.flatMap_congr
  intro x _
  exact located_uses p (place x) (uses x)

end Validation

namespace ClassFile

open Validation

/-- Each reference that does not lead where its role requires is reported once, at the place it
belongs to and with the error of its lookup, and no other breach of a reference is reported. Index 0
leads nowhere, as a super class too. -/
theorem validate_references {c : ClassFile} (built : c.pool.Reachable) :
    c.validate.filter (·.breach.subject = .reference) =
        c.crossReferences.filterMap (CrossReference.violation? c.pool) ∧
      ∀ role, (⟨role, 0⟩ : Use).lookup c.pool = .error (.invalidIndex 0) := by
  constructor
  · have version : (versionBreaches c.version).filter (·.subject = .reference) = [] :=
      filter_other_subject (fun _ => subject_of_mem_version) (by decide)
    rw [filter_breach_validate c (·.subject = .reference), version, filter_reference_header,
      crossReferences]
    simp only [filter_reference_constant, filter_reference_field, filter_reference_method,
      List.filterMap_append, ← blocks_uses, ← located_uses]
    rfl
  · intro role
    have missing : c.pool.get 0 = .error (.invalidIndex 0) := by
      apply Pool.get_eq_error
      intro k found
      rw [Pool.get_eq_ok_iff] at found
      cases built.wellFormed.first_gap.symm.trans found
    cases role <;> simp [Use.lookup, ReferenceRole.required, Pool.resolve, missing]

/-- References into nothing, of a method handle, a name and the super class among them, and to
constants of the wrong kinds, one of them made twice. -/
def astray : ClassFile where
  version := .jdk 8
  pool := .ofConstants [.utf8 (.text "A"), .classRef 1, .nameAndType 2 9,
    .methodHandle .invokeStatic 0, .fieldRef 2 3]
  flags := ∅
  thisClass := 2
  superClass := 0
  interfaces := [2, 1, 1]
  fields := []
  methods := [⟨∅, 1, 4, []⟩]
  attributes := []

theorem validate_references_astray :
    astray.pool.Reachable ∧ astray.validate.filter (·.breach.subject = .reference) =
      [⟨.poolEntry 3, .badReference .name (.kindMismatch 2 .utf8 .classRef)⟩,
        ⟨.poolEntry 3, .badReference .descriptor (.invalidIndex 9)⟩,
        ⟨.poolEntry 4, .badReference .target (.invalidIndex 0)⟩,
        ⟨.classFile, .badReference .superClass (.invalidIndex 0)⟩,
        ⟨.classFile, .badReference .interface (.kindMismatch 1 .classRef .utf8)⟩,
        ⟨.classFile, .badReference .interface (.kindMismatch 1 .classRef .utf8)⟩,
        ⟨.method 0, .badReference .descriptor (.kindMismatch 4 .utf8 .methodHandle)⟩] := by
  have built : astray.pool.Reachable := Pool.reachable_ofConstants (by decide)
  refine ⟨built, ?_⟩
  rw [(validate_references built).1]
  decide

end ClassFile

end ClassFormat
