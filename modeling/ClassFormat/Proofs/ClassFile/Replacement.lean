import ClassFormat.Proofs.ClassFile.RoundTrip
import ClassFormat.Proofs.Pool.Replacement

/-!
A class file with a constant of its pool in the place of another. Main statement:
`replaceConstant_in_place`, by which the bytes around the constant stay what they are.
-/
namespace ClassFormat.ClassFile

/-- The class file with another pool. -/
def withPool (c : ClassFile) (p : Pool) : ClassFile := { c with pool := p }

/-- Replaces a constant of the pool and leaves all else as it is. -/
def replaceConstant (c : ClassFile) (index : PoolIndex) (new : Constant) :
    Except PoolError Constant × ClassFile :=
  ((c.pool.replace index new).1, c.withPool (c.pool.replace index new).2)

theorem replaceConstant_eq_ok_iff {c after : ClassFile} {index : PoolIndex} {old new : Constant} :
    c.replaceConstant index new = (.ok old, after) ↔
      c.pool.get index = .ok old ∧ old.isWide = new.isWide ∧
        after = c.withPool (c.pool.put index new) := by
  rw [replaceConstant, Prod.mk.injEq]
  constructor
  · rintro ⟨result, rfl⟩
    have done : c.pool.replace index new = (.ok old, (c.pool.replace index new).2) :=
      Prod.ext result rfl
    obtain ⟨found, same, pool⟩ := Pool.replace_eq_ok_iff.mp done
    exact ⟨found, same, congrArg c.withPool pool⟩
  · rintro ⟨found, same, rfl⟩
    rw [Pool.replace_eq_ok_iff.mpr ⟨found, same, rfl⟩]
    exact ⟨rfl, rfl⟩

/-- What the class file is written as around the place of a constant. -/
theorem writing_put {c : ClassFile} {index : PoolIndex} {old : Constant}
    (found : c.pool.get index = .ok old) :
    ∃ front back, ∀ d, (c.withPool (c.pool.put index d)).writing =
      front ++ (d.writing ++ back) := by
  obtain ⟨before, behind, pool⟩ := Pool.writing_put found
  refine ⟨.value magic ++ .value c.version.minor ++ .value c.version.major ++ before,
    behind ++ .all [.value c.flags.bits, .value c.thisClass, .value c.superClass,
      .table Writing.value c.interfaces, .table Member.writing c.fields,
      .table Member.writing c.methods, Attribute.tableWriting c.attributes], ?_⟩
  intro d
  have parts : (c.withPool (c.pool.put index d)).writing =
      .value magic ++ (.value c.version.minor ++ (.value c.version.major ++
        ((c.pool.put index d).writing ++ .all [.value c.flags.bits, .value c.thisClass,
          .value c.superClass, .table Writing.value c.interfaces,
          .table Member.writing c.fields, .table Member.writing c.methods,
          Attribute.tableWriting c.attributes]))) := rfl
  simp only [parts, pool, Writing.append_assoc]

/-- Whatever constant is at the place, the class file is written as these bytes around it. -/
def Surrounds (c : ClassFile) (index : PoolIndex) (front back : List UInt8) : Prop :=
  ∀ d form, d.writing.Emits form →
    (c.withPool (c.pool.put index d)).writing.Emits (front ++ (form ++ back))

theorem exists_surrounds {c : ClassFile} {bytes : List UInt8} (written : c.encode = .ok bytes)
    {index : PoolIndex} {old : Constant} (found : c.pool.get index = .ok old) :
    old.Fits ∧ ∃ front back, c.Surrounds index front back := by
  obtain ⟨before, behind, around⟩ := writing_put found
  have whole : c.writing = before ++ (old.writing ++ behind) := by
    rw [← around old, Pool.put_self found]
    rfl
  have emits : c.writing.Emits bytes := encode_eq_ok_iff.mp written
  rw [whole, Writing.emits_append_iff] at emits
  obtain ⟨front, rest, _, first, later⟩ := emits
  obtain ⟨form, back, _, here, last⟩ := Writing.emits_append_iff.mp later
  refine ⟨Constant.exists_emits_iff.mp ⟨form, here⟩, front, back, ?_⟩
  intro d form' emits'
  rw [around d, Writing.emits_append_iff]
  exact ⟨front, _, rfl, first, Writing.emits_append_iff.mpr ⟨form', back, rfl, emits', last⟩⟩

/-- What is put at the place does not change what is around it. -/
theorem Surrounds.put {c : ClassFile} {index : PoolIndex} {front back : List UInt8}
    (h : c.Surrounds index front back) (new : Constant) :
    (c.withPool (c.pool.put index new)).Surrounds index front back := by
  intro d form emits
  have same : (c.withPool (c.pool.put index new)).withPool ((c.pool.put index new).put index d) =
      c.withPool (c.pool.put index d) := congrArg c.withPool (c.pool.put_put index new d)
  exact same ▸ h d form emits

/-- One class file comes of another by putting a constant in the place of an old one: the bytes of
the constant are exchanged between the same bytes, and nothing else is. -/
structure EditedInPlace (c after : ClassFile) (index : PoolIndex) (old new : Constant)
    (front back : List UInt8) : Prop where
  old_written : ∃ form, old.writing.toBytes = .ok form ∧ c.encode = .ok (front ++ (form ++ back))
  new_written : new.Fits → ∃ form, new.writing.toBytes = .ok form ∧
    after.encode = .ok (front ++ (form ++ back))
  only_pool : after = c.withPool after.pool
  count_eq : after.pool.count = c.pool.count
  get_here : c.pool.get index = .ok old ∧ after.pool.get index = .ok new
  get_elsewhere : ∀ i, i ≠ index → after.pool.get i = c.pool.get i
  entries : ∃ earlier later, c.pool.entries = earlier ++ (index, old) :: later ∧
    after.pool.entries = earlier ++ (index, new) :: later
  restored : after.replaceConstant index old = (.ok new, c)

theorem Surrounds.editedInPlace {c after : ClassFile} {index : PoolIndex} {old new : Constant}
    {front back : List UInt8} (h : c.Surrounds index front back) (fits : old.Fits)
    (done : c.replaceConstant index new = (.ok old, after)) :
    EditedInPlace c after index old new front back := by
  obtain ⟨found, same, rfl⟩ := replaceConstant_eq_ok_iff.mp done
  have unchanged : c.withPool (c.pool.put index old) = c :=
    congrArg c.withPool (Pool.put_self found)
  have here := Pool.get_put_self found new
  obtain ⟨earlier, later, entries⟩ := Pool.entries_put found
  constructor
  · obtain ⟨form, emits⟩ := Constant.exists_emits_iff.mpr fits
    have whole := h old form emits
    rw [unchanged] at whole
    exact ⟨form, Writing.toBytes_eq_ok_iff.mpr emits, encode_eq_ok_iff.mpr whole⟩
  · intro fits'
    obtain ⟨form, emits⟩ := Constant.exists_emits_iff.mpr fits'
    exact ⟨form, Writing.toBytes_eq_ok_iff.mpr emits, encode_eq_ok_iff.mpr (h new form emits)⟩
  · rfl
  · exact congrArg UInt16.ofNat (c.pool.size_put index new)
  · exact ⟨found, here⟩
  · intro i other
    exact c.pool.get_put_of_ne new other
  · have entries_old := entries old
    rw [Pool.put_self found] at entries_old
    exact ⟨earlier, later, entries_old, entries new⟩
  · refine replaceConstant_eq_ok_iff.mpr ⟨here, same.symm, ?_⟩
    have back : (c.pool.put index new).put index old = c.pool := by
      rw [Pool.put_put, Pool.put_self found]
    exact (congrArg c.withPool back).symm

/-- A replacement is an edit in place. The bytes around the place are found once for all constants:
they serve for any new one, and for the new one again when it is the one to be replaced. -/
theorem replaceConstant_in_place {c : ClassFile} {bytes : List UInt8}
    (written : c.encode = .ok bytes) (index : PoolIndex) :
    ∃ front back, ∀ old new after, c.replaceConstant index new = (.ok old, after) →
      EditedInPlace c after index old new front back ∧
        ∀ other again, new.Fits → after.replaceConstant index other = (.ok new, again) →
          EditedInPlace after again index new other front back := by
  cases present : c.pool.get index with
  | error e =>
    refine ⟨[], [], fun old new after done => ?_⟩
    obtain ⟨found, _⟩ := replaceConstant_eq_ok_iff.mp done
    cases present.symm.trans found
  | ok d =>
    obtain ⟨fits, front, back, around⟩ := exists_surrounds written present
    refine ⟨front, back, fun old new after done => ?_⟩
    obtain ⟨found, _, rfl⟩ := replaceConstant_eq_ok_iff.mp done
    cases present.symm.trans found
    refine ⟨around.editedInPlace fits done, ?_⟩
    intro other again fits' done'
    exact (around.put new).editedInPlace fits' done'

/-- A string of one character in the place of which comes a longer one. -/
theorem replaceConstant_peculiar :
    ∃ front back, peculiar.encode = .ok (front ++ ([0x01, 0x00, 0x01, 0x41] ++ back)) ∧
      ∃ after, peculiar.replaceConstant 1 (.utf8 (.text "Bö")) = (.ok (.utf8 (.text "A")), after) ∧
        after.encode = .ok (front ++ ([0x01, 0x00, 0x03, 0x42, 0xC3, 0xB6] ++ back)) ∧
        after.replaceConstant 1 (.utf8 (.text "A")) = (.ok (.utf8 (.text "Bö")), peculiar) := by
  have written : peculiar.encode = .ok peculiarBytes := rfl
  obtain ⟨front, back, edit⟩ := replaceConstant_in_place written 1
  have done : peculiar.replaceConstant 1 (.utf8 (.text "Bö")) = (.ok (.utf8 (.text "A")),
      peculiar.withPool (peculiar.pool.put 1 (.utf8 (.text "Bö")))) := rfl
  obtain ⟨⟨⟨old, form, was⟩, is, _, _, _, _, _, restored⟩, _⟩ := edit _ _ _ done
  obtain ⟨new, form', now⟩ := is (Nat.le_of_ble_eq_true rfl)
  cases form
  cases form'
  exact ⟨front, back, was, _, done, now, restored⟩

end ClassFormat.ClassFile
