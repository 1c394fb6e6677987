import ClassFormat.ClassFile.Codec
import ClassFormat.Proofs.Pool.Codec

/-!
Attributes, fields, methods and class files are read exactly from the bytes that they are written
as. Main statement: `ClassFile.reads_iff_emits`.
-/
namespace ClassFormat

open Reading (bind_eq pure_eq reads_done_iff reads_refuse_iff reads_bind_iff reads_bytes_iff
  reads_value_iff reads_value_bind_iff reads_counted_iff)
open Writing (emits_bytes_iff emits_append_iff emits_value_iff emits_value_append_iff
  emits_length_append_iff)

theorem Attribute.reads_iff_emits (bytes : List UInt8) (a : Attribute) :
    Attribute.reading.Reads bytes a ↔ a.writing.Emits bytes := by
  simp only [Attribute.reading, bind_eq, pure_eq, reads_value_bind_iff (α := UInt16) (by decide),
    reads_value_bind_iff (α := UInt32) (by decide), reads_bind_iff, reads_bytes_iff,
    reads_done_iff, Attribute.writing, emits_value_append_iff (α := UInt16) (by decide),
    emits_length_append_iff UInt32 4 rfl, emits_bytes_iff]
  constructor
  · rintro ⟨name, _, rfl, length, _, rfl, _, info, _, rfl, ⟨rfl, full⟩, rfl, rfl⟩
    exact ⟨_, rfl, length, info, full.symm, by rw [List.append_nil], rfl⟩
  · rintro ⟨_, rfl, length, _, announced, rfl, rfl⟩
    exact ⟨a.name, _, rfl, length, a.info, rfl, a.info, a.info, [], (List.append_nil _).symm,
      ⟨rfl, announced.symm⟩, rfl, rfl⟩

theorem Attribute.reads_table_iff_emits (bytes : List UInt8) (attributes : List Attribute) :
    Attribute.tableReading.Reads bytes attributes ↔
      (Attribute.tableWriting attributes).Emits bytes :=
  reads_counted_iff Attribute.reads_iff_emits

theorem Member.reads_iff_emits {o : FlagOwner} (bytes : List UInt8) (m : Member o) :
    Member.reading.Reads bytes m ↔ m.writing.Emits bytes := by
  simp only [Member.reading, bind_eq, pure_eq, reads_value_bind_iff (α := UInt16) (by decide),
    reads_bind_iff, Attribute.reads_table_iff_emits, reads_done_iff, Member.writing,
    emits_value_append_iff (α := UInt16) (by decide)]
  constructor
  · rintro ⟨bits, _, rfl, name, _, rfl, descriptor, _, rfl, attributes, front, _, rfl, table, rfl,
      rfl⟩
    rw [List.append_nil]
    exact ⟨_, rfl, _, rfl, _, rfl, table⟩
  · rintro ⟨_, rfl, _, rfl, back, rfl, table⟩
    exact ⟨m.flags.bits, _, rfl, m.name, _, rfl, m.descriptor, _, rfl, m.attributes, back, [],
      (List.append_nil _).symm, table, rfl, rfl⟩

theorem Member.reads_table_iff_emits {o : FlagOwner} (bytes : List UInt8)
    (members : List (Member o)) :
    Member.tableReading.Reads bytes members ↔ (Writing.table Member.writing members).Emits bytes :=
  reads_counted_iff Member.reads_iff_emits

theorem reads_indices_iff_emits (bytes : List UInt8) (indices : List PoolIndex) :
    ((Reading.value UInt16).bind fun count =>
        Reading.table count.toNat (Reading.value UInt16)).Reads bytes indices ↔
      (Writing.table Writing.value indices).Emits bytes :=
  reads_counted_iff fun _ _ =>
    (reads_value_iff (by decide)).trans (emits_value_iff (by decide)).symm

namespace ClassFile

/-- The reading of a class file, with each table as one step. -/
theorem reading_eq : ClassFile.reading =
    (Reading.value UInt32).bind fun start =>
      if start ≠ magic then .refuse (.notAClassFile start)
      else
        (Reading.value UInt16).bind fun minor =>
        (Reading.value UInt16).bind fun major =>
        ((Reading.value UInt16).bind Pool.reading).bind fun pool =>
        (Reading.value UInt16).bind fun bits =>
        (Reading.value UInt16).bind fun thisClass =>
        (Reading.value UInt16).bind fun superClass =>
        ((Reading.value UInt16).bind fun count =>
          Reading.table count.toNat (Reading.value UInt16)).bind fun interfaces =>
        Member.tableReading.bind fun fields =>
        Member.tableReading.bind fun methods =>
        Attribute.tableReading.bind fun attributes =>
        .done ⟨⟨major, minor⟩, pool, ⟨bits⟩, thisClass, superClass, interfaces, fields, methods,
          attributes⟩ := by
  simp only [Reading.bind_assoc]
  rfl

theorem emits_iff {bytes : List UInt8} {c : ClassFile} :
    c.writing.Emits bytes ↔
      ∃ pool interfaces fields methods attributes,
        c.pool.writing.Emits pool ∧
        (Writing.table Writing.value c.interfaces).Emits interfaces ∧
        (Writing.table Member.writing c.fields).Emits fields ∧
        (Writing.table Member.writing c.methods).Emits methods ∧
        (Attribute.tableWriting c.attributes).Emits attributes ∧
        bytes = FixedWidth.encode magic ++ (FixedWidth.encode c.version.minor ++
          (FixedWidth.encode c.version.major ++ (pool ++ (FixedWidth.encode c.flags.bits ++
          (FixedWidth.encode c.thisClass ++ (FixedWidth.encode c.superClass ++
          (interfaces ++ (fields ++ (methods ++ attributes))))))))) := by
  simp only [ClassFile.writing, Writing.all_cons, emits_append_iff,
    emits_value_iff (α := UInt16) (by decide), emits_value_iff (α := UInt32) (by decide),
    Writing.emits_all_nil_iff]
  constructor
  · rintro ⟨_, _, rfl, rfl, _, _, rfl, rfl, _, _, rfl, rfl, pool, _, rfl, emits₁, _, _, rfl, rfl,
      _, _, rfl, rfl, _, _, rfl, rfl, interfaces, _, rfl, emits₂, fields, _, rfl, emits₃,
      methods, _, rfl, emits₄, attributes, _, rfl, emits₅, rfl⟩
    exact ⟨pool, interfaces, fields, methods, attributes, emits₁, emits₂, emits₃, emits₄, emits₅,
      by rw [List.append_nil]⟩
  · rintro ⟨pool, interfaces, fields, methods, attributes, emits₁, emits₂, emits₃, emits₄, emits₅,
      rfl⟩
    exact ⟨_, _, rfl, rfl, _, _, rfl, rfl, _, _, rfl, rfl, pool, _, rfl, emits₁, _, _, rfl, rfl,
      _, _, rfl, rfl, _, _, rfl, rfl, interfaces, _, rfl, emits₂, fields, _, rfl, emits₃,
      methods, _, rfl, emits₄, attributes, [], (List.append_nil _).symm, emits₅, rfl⟩

theorem reads_iff_emits {bytes : List UInt8} {c : ClassFile} :
    ClassFile.reading.Reads bytes c ↔
      c.writing.Emits bytes ∧ c.pool.WellFormed ∧ c.pool.Faithful := by
  rw [emits_iff, reading_eq, reads_value_bind_iff (by decide)]
  constructor
  · rintro ⟨start, _, rfl, later⟩
    split at later
    · exact absurd later reads_refuse_iff.mp
    rename_i right
    obtain ⟨minor, _, rfl, later₁⟩ := (reads_value_bind_iff (by decide)).mp later
    obtain ⟨major, _, rfl, later₂⟩ := (reads_value_bind_iff (by decide)).mp later₁
    obtain ⟨pool, poolBytes, _, rfl, first, later₃⟩ := reads_bind_iff.mp later₂
    obtain ⟨emits, wellFormed, faithful⟩ := Pool.reads_iff_emits.mp first
    obtain ⟨bits, _, rfl, later₄⟩ := (reads_value_bind_iff (by decide)).mp later₃
    obtain ⟨thisClass, _, rfl, later₅⟩ := (reads_value_bind_iff (by decide)).mp later₄
    obtain ⟨superClass, _, rfl, later₆⟩ := (reads_value_bind_iff (by decide)).mp later₅
    obtain ⟨interfaces, interfaceBytes, _, rfl, second, later₇⟩ := reads_bind_iff.mp later₆
    obtain ⟨fields, fieldBytes, _, rfl, third, later₈⟩ := reads_bind_iff.mp later₇
    obtain ⟨methods, methodBytes, _, rfl, fourth, later₉⟩ := reads_bind_iff.mp later₈
    obtain ⟨attributes, attributeBytes, _, rfl, fifth, later₁₀⟩ := reads_bind_iff.mp later₉
    obtain ⟨rfl, rfl⟩ := reads_done_iff.mp later₁₀
    refine ⟨⟨poolBytes, interfaceBytes, fieldBytes, methodBytes, attributeBytes, emits,
      (reads_indices_iff_emits _ _).mp second, (Member.reads_table_iff_emits _ _).mp third,
      (Member.reads_table_iff_emits _ _).mp fourth, (Attribute.reads_table_iff_emits _ _).mp fifth,
      ?_⟩, wellFormed, faithful⟩
    rw [Decidable.of_not_not right, List.append_nil]
  · rintro ⟨⟨poolBytes, interfaceBytes, fieldBytes, methodBytes, attributeBytes, emits, second,
      third, fourth, fifth, rfl⟩, wellFormed, faithful⟩
    refine ⟨magic, _, rfl, ?_⟩
    rw [if_neg (not_not_intro rfl)]
    refine (reads_value_bind_iff (by decide)).mpr ⟨c.version.minor, _, rfl, ?_⟩
    refine (reads_value_bind_iff (by decide)).mpr ⟨c.version.major, _, rfl, ?_⟩
    refine reads_bind_iff.mpr ⟨c.pool, poolBytes, _, rfl,
      Pool.reads_iff_emits.mpr ⟨emits, wellFormed, faithful⟩, ?_⟩
    refine (reads_value_bind_iff (by decide)).mpr ⟨c.flags.bits, _, rfl, ?_⟩
    refine (reads_value_bind_iff (by decide)).mpr ⟨c.thisClass, _, rfl, ?_⟩
    refine (reads_value_bind_iff (by decide)).mpr ⟨c.superClass, _, rfl, ?_⟩
    refine reads_bind_iff.mpr ⟨c.interfaces, interfaceBytes, _, rfl,
      (reads_indices_iff_emits _ _).mpr second, ?_⟩
    refine reads_bind_iff.mpr ⟨c.fields, fieldBytes, _, rfl,
      (Member.reads_table_iff_emits _ _).mpr third, ?_⟩
    refine reads_bind_iff.mpr ⟨c.methods, methodBytes, _, rfl,
      (Member.reads_table_iff_emits _ _).mpr fourth, ?_⟩
    refine reads_bind_iff.mpr ⟨c.attributes, attributeBytes, [], (List.append_nil _).symm,
      (Attribute.reads_table_iff_emits _ _).mpr fifth, ?_⟩
    exact reads_done_iff.mpr ⟨rfl, rfl⟩

end ClassFile

end ClassFormat
