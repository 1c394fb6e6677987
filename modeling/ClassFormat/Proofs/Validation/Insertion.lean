import ClassFormat.Proofs.ClassFile.Replacement
import ClassFormat.Proofs.Pool.Deduplication
import ClassFormat.Proofs.Validation.CrossReferences
import ClassFormat.Proofs.Validation.Renumbering

/-!
A constant put behind all others. As long as no index of the class file lies behind the end of its
pool, all that was reported is reported again, and all that is new is about the new constant. Main
statement: `validate_inserted`.
-/
namespace ClassFormat

namespace Recasting

variable {limit : PoolIndex}

/-- Renames all indices from a limit on to the last one, under which no pool has a slot. -/
def clipping (limit : PoolIndex) : Recasting :=
  renumbering fun index => if index < limit then index else 0xFFFF

theorem index_clipping {index : PoolIndex} (inside : index < limit) :
    (clipping limit).index index = index :=
  if_pos inside

theorem index_clipping_of_not_lt {index : PoolIndex} (outside : ¬index < limit) :
    (clipping limit).index index = 0xFFFF :=
  if_neg outside

theorem lawful_clipping (positive : 0 < limit) : (clipping limit).Lawful where
  text _ := rfl
  flags _ a := Flags.SameKnown.refl a
  zero index := by
    by_cases inside : index < limit
    · rw [index_clipping inside]
    · rw [index_clipping_of_not_lt inside]
      constructor
      · intro last
        cases last
      · rintro rfl
        exact absurd positive inside

theorem constant_clipping {k : Constant} (inside : ∀ use ∈ k.uses, use.index < limit) :
    (clipping limit).constant k = k := by
  have fixed (role : ReferenceRole) (index : PoolIndex) (held : k.indexFor? role = some index) :
      (clipping limit).index index = index :=
    index_clipping (inside ⟨role, index⟩ (Constant.mem_uses_iff.mpr held))
  cases k with
  | utf8 | integer | float | long | double => rfl
  | classRef name | moduleRef name | packageRef name => rw [constant, fixed .name name rfl]
  | stringRef value => rw [constant, fixed .string value rfl]
  | fieldRef owner nameType | methodRef owner nameType | interfaceMethodRef owner nameType =>
    rw [constant, fixed .owner owner rfl, fixed .nameAndType nameType rfl]
  | nameAndType name descriptor =>
    rw [constant, fixed .name name rfl, fixed .descriptor descriptor rfl]
  | methodHandle kind target => rw [constant, fixed .target target rfl]
  | methodType descriptor => rw [constant, fixed .descriptor descriptor rfl]
  | dynamic bootstrap nameType | invokeDynamic bootstrap nameType =>
    rw [constant, fixed .nameAndType nameType rfl]
    rfl

theorem member_clipping {o : FlagOwner} {m : Member o}
    (inside : ∀ use ∈ m.uses, use.index < limit) : (clipping limit).member m = m := by
  have name := index_clipping (inside ⟨.name, m.name⟩ List.mem_cons_self)
  have descriptor := index_clipping (inside ⟨.descriptor, m.descriptor⟩ (by simp [Member.uses]))
  rw [member, name, descriptor]
  rfl

end Recasting

namespace Pool

variable {p q : Pool}

theorem get_last (fits : p.slots.size ≤ capacity) :
    p.get 0xFFFF = .error (.invalidIndex 0xFFFF) := by
  apply get_eq_error
  intro k found
  have inside := lt_count_of_get fits found
  rw [UInt16.lt_iff_toNat_lt, toNat_count fits] at inside
  exact Nat.not_le_of_lt inside fits

/-- A pool becomes any that has the same below its end, where all its references stay. -/
theorem becomes_clipping (fits : p.slots.size ≤ capacity) (fits' : q.slots.size ≤ capacity)
    (closed : ∀ index k, p.get index = .ok k → ∀ use ∈ k.uses, use.index < p.count)
    (same : ∀ index, index < p.count → q.get index = p.get index) :
    p.Becomes (.clipping p.count) q where
  found index k found := by
    have inside := lt_count_of_get fits found
    rw [Recasting.index_clipping inside, Recasting.constant_clipping (closed index k found),
      same index inside, found]
  missing index e missing := by
    by_cases inside : index < p.count
    · rw [Recasting.index_clipping inside, same index inside]
      exact ⟨e, missing⟩
    · rw [Recasting.index_clipping_of_not_lt inside]
      exact ⟨_, get_last fits'⟩

end Pool

namespace ClassFile

open Validation

variable {c after : ClassFile} {k : Constant} {index : PoolIndex} {q : Pool}

/-- Puts a constant behind all others of the pool and leaves all else as it is. -/
def insertConstant (c : ClassFile) (new : Constant) : Except PoolError PoolIndex × ClassFile :=
  ((c.pool.insert new).1, c.withPool (c.pool.insert new).2)

/-- No index lies behind the end of the pool; gaps and constants of wrong kinds may be meant. -/
def WithinPool (c : ClassFile) : Prop :=
  ∀ reference ∈ c.crossReferences, reference.use.index < c.pool.count

theorem insertConstant_eq_ok (inserted : c.insertConstant k = (.ok index, after)) :
    c.pool.slots.size + k.width ≤ Pool.capacity ∧ index = c.pool.count ∧
      after = c.withPool (c.pool.append k) := by
  obtain ⟨result, rfl⟩ := Prod.mk.inj inserted
  rcases c.pool.insert_eq k with ⟨room, done⟩ | ⟨_, failed⟩
  · rw [done] at result ⊢
    cases result
    exact ⟨room, rfl, rfl⟩
  · rw [failed] at result
    cases result

namespace WithinPool

theorem constant (within : c.WithinPool) (found : c.pool.get index = .ok k) :
    ∀ use ∈ k.uses, use.index < c.pool.count := by
  intro use member
  refine within ⟨.poolEntry index, use⟩ ?_
  have entry := Pool.mem_entries_of_get found
  simp only [crossReferences, List.mem_append, List.mem_flatMap, List.mem_map]
  exact .inl (.inl (.inl ⟨_, entry, use, member, rfl⟩))

theorem header (within : c.WithinPool) : ∀ use ∈ c.headerUses, use.index < c.pool.count := by
  intro use member
  refine within ⟨.classFile, use⟩ ?_
  simp only [crossReferences, List.mem_append, List.mem_map]
  exact .inl (.inl (.inr ⟨use, member, rfl⟩))

theorem field (within : c.WithinPool) {f : Field} (listed : f ∈ c.fields) :
    ∀ use ∈ f.uses, use.index < c.pool.count := by
  intro use member
  obtain ⟨i, found⟩ := List.mem_iff_getElem?.mp listed
  refine within ⟨.field i, use⟩ ?_
  have numbered := List.mk_mem_zipIdx_iff_getElem?.mpr found
  simp only [crossReferences, List.mem_append, List.mem_flatMap, List.mem_map]
  exact .inl (.inr ⟨_, numbered, use, member, rfl⟩)

theorem method (within : c.WithinPool) {m : Method} (listed : m ∈ c.methods) :
    ∀ use ∈ m.uses, use.index < c.pool.count := by
  intro use member
  obtain ⟨i, found⟩ := List.mem_iff_getElem?.mp listed
  refine within ⟨.method i, use⟩ ?_
  have numbered := List.mk_mem_zipIdx_iff_getElem?.mpr found
  simp only [crossReferences, List.mem_append, List.mem_flatMap, List.mem_map]
  exact .inr ⟨_, numbered, use, member, rfl⟩

theorem thisClass (within : c.WithinPool) : c.thisClass < c.pool.count :=
  within.header ⟨.thisClass, c.thisClass⟩ (by simp [headerUses])

theorem positive (within : c.WithinPool) : 0 < c.pool.count :=
  UInt16.lt_of_le_of_lt UInt16.zero_le within.thisClass

theorem superClass (within : c.WithinPool) : c.superClass < c.pool.count := by
  by_cases zero : c.superClass = 0
  · rw [zero]
    exact within.positive
  · exact within.header ⟨.superClass, c.superClass⟩ (by simp [headerUses, zero])

theorem interface (within : c.WithinPool) {index : PoolIndex} (listed : index ∈ c.interfaces) :
    index < c.pool.count :=
  within.header ⟨.interface, index⟩ (by simp [headerUses, listed])

theorem becomes (within : c.WithinPool) (fits : c.pool.slots.size ≤ Pool.capacity)
    (fits' : q.slots.size ≤ Pool.capacity)
    (same : ∀ index, index < c.pool.count → q.get index = c.pool.get index) :
    c.pool.Becomes (.clipping c.pool.count) q :=
  Pool.becomes_clipping fits fits' (fun _ _ => within.constant) same

theorem classFile_clipping (within : c.WithinPool) (q : Pool) :
    (Recasting.clipping c.pool.count).classFile c q = c.withPool q := by
  have fixed {α : Type} {f : α → α} {xs : List α} (each : ∀ x ∈ xs, f x = x) : xs.map f = xs :=
    (List.map_congr_left each).trans (List.map_id' xs)
  have interfaces : c.interfaces.map (Recasting.clipping c.pool.count).index = c.interfaces :=
    fixed fun _ listed => Recasting.index_clipping (within.interface listed)
  have fields : c.fields.map (Recasting.clipping c.pool.count).member = c.fields :=
    fixed fun _ listed => Recasting.member_clipping (within.field listed)
  have methods : c.methods.map (Recasting.clipping c.pool.count).member = c.methods :=
    fixed fun _ listed => Recasting.member_clipping (within.method listed)
  rw [Recasting.classFile, interfaces, fields, methods,
    Recasting.index_clipping within.thisClass, Recasting.index_clipping within.superClass]
  rfl

theorem entries_clipping (within : c.WithinPool) (fits : c.pool.slots.size ≤ Pool.capacity) :
    c.pool.entries.map (fun e => ((Recasting.clipping c.pool.count).index e.1,
      (Recasting.clipping c.pool.count).constant e.2)) = c.pool.entries := by
  refine (List.map_congr_left ?_).trans (List.map_id' _)
  rintro ⟨index, k⟩ member
  have found := (Pool.mem_entries_iff fits).mp member
  rw [Recasting.index_clipping (Pool.lt_count_of_get fits found),
    Recasting.constant_clipping (within.constant found)]

/-- By the same renaming the old pool becomes the new one and stays what it is, so that the reports
on both are the renamed reports on the old one. -/
theorem behindPool_withPool (within : c.WithinPool) (fits : c.pool.slots.size ≤ Pool.capacity)
    (fits' : q.slots.size ≤ Pool.capacity)
    (same : ∀ index, index < c.pool.count → q.get index = c.pool.get index) :
    (c.withPool q).behindPool = c.behindPool := by
  have lawful := Recasting.lawful_clipping within.positive
  have stays := within.becomes fits fits fun _ _ => rfl
  have becomes := within.becomes fits fits' same
  calc (c.withPool q).behindPool
    _ = ((Recasting.clipping c.pool.count).classFile c q).behindPool := by
      rw [within.classFile_clipping]
    _ = c.behindPool.map (·.renamed (Recasting.clipping c.pool.count).index) :=
      Recasting.behindPool_classFile becomes lawful
    _ = ((Recasting.clipping c.pool.count).classFile c c.pool).behindPool :=
      (Recasting.behindPool_classFile stays lawful).symm
    _ = c.behindPool := by
      rw [within.classFile_clipping]
      rfl

theorem entries_withPool (within : c.WithinPool) (fits : c.pool.slots.size ≤ Pool.capacity)
    (fits' : q.slots.size ≤ Pool.capacity)
    (same : ∀ index, index < c.pool.count → q.get index = c.pool.get index) :
    blocks (fun e => .poolEntry e.1) (fun e => constantBreaches c.version q e.2)
      c.pool.entries = entryViolations c.version c.pool := by
  have lawful := Recasting.lawful_clipping within.positive
  have renamed := map_renamed_entries (v := c.version) (within.becomes fits fits' same) lawful
  have renamed' := map_renamed_entries (v := c.version)
    (within.becomes fits fits fun _ _ => rfl) lawful
  rw [within.entries_clipping fits] at renamed renamed'
  exact renamed.trans renamed'.symm

end WithinPool

/-- The violations in front of the header. -/
def throughPool (c : ClassFile) : List Violation :=
  located .classFile (versionBreaches c.version) ++ entryViolations c.version c.pool

theorem location_of_mem_throughPool (fits : c.pool.slots.size ≤ Pool.capacity)
    {violation : Violation} (member : violation ∈ c.throughPool) :
    violation.breach.subject = .version ∨
      ∃ i, i < c.pool.count ∧ violation.location = .poolEntry i := by
  rcases List.mem_append.mp member with version | entry
  · exact .inl (subject_of_mem_version (mem_located_iff.mp version).2)
  · obtain ⟨⟨i, k⟩, listed, place, _⟩ := mem_blocks_iff.mp entry
    exact .inr ⟨i, Pool.lt_count_of_get fits ((Pool.mem_entries_iff fits).mp listed), place⟩

theorem location_of_mem_behindPool {violation : Violation} (member : violation ∈ c.behindPool) :
    violation.breach.subject ≠ .version ∧ violation.location.isPoolEntry = false := by
  simp only [behindPool, List.mem_append, mem_located_iff, mem_blocks_iff] at member
  obtain (⟨place, found⟩ | ⟨f, _, place, found⟩) | ⟨m, _, place, found⟩ := member
  · rw [place]
    exact ⟨ne_version_of_mem_part (subject_of_mem_header found), rfl⟩
  · rw [place]
    exact ⟨ne_version_of_mem_part (subject_of_mem_field found), rfl⟩
  · rw [place]
    exact ⟨ne_version_of_mem_part (subject_of_mem_method found), rfl⟩

theorem WithinPool.validate_append (within : c.WithinPool)
    (room : c.pool.slots.size + k.width ≤ Pool.capacity) :
    (c.withPool (c.pool.append k)).validate =
      c.throughPool ++ located (.poolEntry c.pool.count)
        (constantBreaches c.version (c.pool.append k) k) ++ c.behindPool := by
  have fits : c.pool.slots.size ≤ Pool.capacity := Nat.le_of_add_right_le room
  have fits' : (c.pool.append k).slots.size ≤ Pool.capacity :=
    (c.pool.size_append k).trans_le room
  have same (i : PoolIndex) (inside : i < c.pool.count) :
      (c.pool.append k).get i = c.pool.get i := by
    apply Pool.get_append_of_ne fits
    rintro rfl
    exact UInt16.lt_irrefl _ inside
  have entries : entryViolations c.version (c.pool.append k) =
      entryViolations c.version c.pool ++ located (.poolEntry c.pool.count)
        (constantBreaches c.version (c.pool.append k) k) := by
    have older := within.entries_withPool fits fits' same
    unfold entryViolations
    rw [Pool.entries_append, List.flatMap_append, List.flatMap_singleton]
    exact congrArg (· ++ _) older
  calc (c.withPool (c.pool.append k)).validate
    _ = located .classFile (versionBreaches c.version) ++
        entryViolations c.version (c.pool.append k) ++
        (c.withPool (c.pool.append k)).behindPool := validate_eq_behindPool _
    _ = _ := by
      rw [entries, within.behindPool_withPool fits fits' same, throughPool]
      simp only [List.append_assoc]

/-- The violations of the second class file are those of the first with all that concern a constant
put between: behind those of the version and of the constants before it, and in front of those of
the header. -/
structure ReportsInserted (c after : ClassFile) (index : PoolIndex)
    (front rear : List Violation) : Prop where
  before : c.validate = front ++ rear
  behind : after.validate =
    front ++ located (.poolEntry index) (after.reportAt (.poolEntry index)) ++ rear
  older : ∀ violation ∈ front, violation.breach.subject = .version ∨
    ∃ i, i < index ∧ violation.location = .poolEntry i
  later : ∀ violation ∈ rear, violation.breach.subject ≠ .version ∧
    violation.location.isPoolEntry = false

/-- Where all indices stay within the pool, a new constant adds what is wrong with itself, and
changes nothing else in the report. It may refer to anything, itself included. -/
theorem validate_inserted (within : c.WithinPool)
    (inserted : c.insertConstant k = (.ok index, after)) :
    (∃ front rear, ReportsInserted c after index front rear) ∧
      after.reportAt (.poolEntry index) = constantBreaches c.version after.pool k ∧
      (c.validate = [] → (after.validate = [] ↔ after.reportAt (.poolEntry index) = [])) := by
  obtain ⟨room, rfl, rfl⟩ := insertConstant_eq_ok inserted
  have fits : c.pool.slots.size ≤ Pool.capacity := Nat.le_of_add_right_le room
  have fits' : (c.pool.append k).slots.size ≤ Pool.capacity :=
    (c.pool.size_append k).trans_le room
  have found : (c.withPool (c.pool.append k)).pool.get c.pool.count = .ok k :=
    Pool.get_append_count fits
  have report : (c.withPool (c.pool.append k)).reportAt (.poolEntry c.pool.count) =
      constantBreaches c.version (c.pool.append k) k :=
    reportAt_poolEntry fits' found
  have before : c.validate = c.throughPool ++ c.behindPool := c.validate_eq_behindPool
  have behind := within.validate_append room
  rw [← report] at behind
  refine ⟨⟨c.throughPool, c.behindPool, ?_⟩, report, ?_⟩
  · exact {
      before, behind
      older := fun _ => location_of_mem_throughPool fits
      later := fun _ => location_of_mem_behindPool }
  · intro clean
    rw [before, List.append_eq_nil_iff] at clean
    rw [behind, clean.1, clean.2, List.nil_append, List.append_nil, located_eq_nil_iff]

/-- The root of all classes with a wrong string, and with an interface in the gap that ends its
pool. -/
def gapped : ClassFile where
  version := .jdk 8
  pool := .ofConstants [.utf8 (.text objectName), .classRef 1, .stringRef 2, .long 5]
  flags := ClassFlags.accPublic ∪ ClassFlags.accSuper
  thisClass := 2
  superClass := 0
  interfaces := [5]
  fields := []
  methods := []
  attributes := []

/-- A class that is to be its own name comes to stand behind the gap. -/
theorem validate_inserted_itself :
    gapped.validate = [⟨.poolEntry 3, .badReference .string (.kindMismatch 2 .utf8 .classRef)⟩,
        ⟨.classFile, .badReference .interface (.invalidIndex 5)⟩] ∧
      gapped.WithinPool ∧ ∃ after, gapped.insertConstant (.classRef 6) = (.ok 6, after) ∧
        (∃ front rear, ReportsInserted gapped after 6 front rear) ∧
        after.reportAt (.poolEntry 6) =
          [.badReference .name (.kindMismatch 6 .utf8 .classRef)] := by
  have within : gapped.WithinPool := by
    unfold WithinPool
    decide
  have inserted : gapped.insertConstant (.classRef 6) =
      (.ok 6, gapped.withPool (gapped.pool.append (.classRef 6))) := rfl
  obtain ⟨reports, report, _⟩ := validate_inserted within inserted
  exact ⟨rfl, within, _, inserted, reports, report.trans rfl⟩

end ClassFile

end ClassFormat
