import ClassFormat.Proofs.Bytes.Lengths
import ClassFormat.Proofs.ClassFile.RoundTrip

/-!
Which class files can be written: those whose strings, tables and attribute bodies are no longer
than the fields that announce them can say. Main statement: `encode_succeeds_iff`.
-/
namespace ClassFormat

open Writing (StoppedUnless stoppedUnless_value stoppedUnless_bytes stoppedUnless_length
  stoppedUnless_table stoppedUnless_all)

/-- The body is short enough for its length to be announced in four bytes. -/
def Attribute.Fits (a : Attribute) : Prop := a.info.length < 2 ^ 32

theorem Attribute.stoppedUnless_fits (a : Attribute) : a.writing.StoppedUnless a.Fits := by
  have body := (stoppedUnless_length 4 a.info.length).append (stoppedUnless_bytes a.info)
  exact (body.value_append (by decide) a.name).congr (and_iff_left trivial)

def Attribute.TableFits (attributes : List Attribute) : Prop :=
  attributes.length ≤ 0xFFFF ∧ ∀ a ∈ attributes, a.Fits

theorem Attribute.stoppedUnless_tableFits (attributes : List Attribute) :
    (tableWriting attributes).StoppedUnless (TableFits attributes) :=
  stoppedUnless_table stoppedUnless_fits attributes

theorem Member.stoppedUnless_fits {o : FlagOwner} (m : Member o) :
    m.writing.StoppedUnless (Attribute.TableFits m.attributes) :=
  (((Attribute.stoppedUnless_tableFits m.attributes).value_append (by decide) m.descriptor
    ).value_append (by decide) m.name).value_append (by decide) m.flags.bits

theorem Member.stoppedUnless_table {o : FlagOwner} (members : List (Member o)) :
    (Writing.table Member.writing members).StoppedUnless
      (members.length ≤ 0xFFFF ∧ ∀ m ∈ members, Attribute.TableFits m.attributes) :=
  Writing.stoppedUnless_table Member.stoppedUnless_fits members

theorem Pool.stoppedUnless_fits (p : Pool) :
    p.writing.StoppedUnless (∀ c ∈ p.constants, c.Fits) := by
  simp only [p.writing_eq]
  exact (stoppedUnless_all Constant.stoppedUnless_fits p.constants).value_append (by decide) p.count

theorem Pool.WellFormed.constants_fit_iff {p : Pool} (h : p.WellFormed) :
    (∀ c ∈ p.constants, c.Fits) ↔
      ∀ index s, p.get index = .ok (.utf8 s) → s.toBytes.length ≤ 0xFFFF := by
  constructor
  · intro fits index s found
    have member := (mem_entries_iff h.size_le).mpr found
    exact fits _ (List.mem_map.mpr ⟨_, member, rfl⟩)
  · intro fits c member
    obtain ⟨⟨index, d⟩, entry, rfl⟩ := List.mem_map.mp member
    have found := (mem_entries_iff h.size_le).mp entry
    cases d with
    | utf8 s => exact fits index s found
    | _ => trivial

namespace ClassFile

/-- All that a class file is written with can be announced: no string is longer than 65535 bytes,
no table longer than 65535 items, and no body of an attribute as long as 2³² bytes. -/
structure LengthsFit (c : ClassFile) : Prop where
  strings : ∀ index s, c.pool.get index = .ok (.utf8 s) → s.toBytes.length ≤ 0xFFFF
  interfaces : c.interfaces.length ≤ 0xFFFF
  fields : c.fields.length ≤ 0xFFFF
  methods : c.methods.length ≤ 0xFFFF
  attributes : Attribute.TableFits c.attributes
  fieldAttributes : ∀ f ∈ c.fields, Attribute.TableFits f.attributes
  methodAttributes : ∀ m ∈ c.methods, Attribute.TableFits m.attributes

/-- The parts in the order in which they are written. -/
theorem stoppedUnless_parts (c : ClassFile) :
    c.writing.StoppedUnless ((∀ d ∈ c.pool.constants, d.Fits) ∧
      (c.interfaces.length ≤ 0xFFFF ∧ ∀ i ∈ c.interfaces, True) ∧
      (c.fields.length ≤ 0xFFFF ∧ ∀ f ∈ c.fields, Attribute.TableFits f.attributes) ∧
      (c.methods.length ≤ 0xFFFF ∧ ∀ m ∈ c.methods, Attribute.TableFits m.attributes) ∧
      Attribute.TableFits c.attributes ∧ True) := by
  have none : (Writing.all []).StoppedUnless True := Writing.stoppedUnless_of_fault_eq_none rfl
  have interfaces := stoppedUnless_table (fun i : PoolIndex => stoppedUnless_value (by decide) i)
    c.interfaces
  have tables := interfaces.append ((Member.stoppedUnless_table c.fields).append
    ((Member.stoppedUnless_table c.methods).append
      ((Attribute.stoppedUnless_tableFits c.attributes).append none)))
  have header := ((tables.value_append (by decide) c.superClass).value_append (by decide)
    c.thisClass).value_append (by decide) c.flags.bits
  have behindVersion := c.pool.stoppedUnless_fits.append header
  exact ((behindVersion.value_append (by decide) c.version.major).value_append (by decide)
    c.version.minor).value_append (by decide) magic

theorem stoppedUnless_lengthsFit {c : ClassFile} (h : c.pool.WellFormed) :
    c.writing.StoppedUnless c.LengthsFit := by
  apply c.stoppedUnless_parts.congr
  rw [h.constants_fit_iff]
  constructor
  · rintro ⟨strings, ⟨interfaces, _⟩, ⟨fields, fieldAttributes⟩, ⟨methods, methodAttributes⟩,
      attributes, _⟩
    exact { strings, interfaces, fields, methods, attributes, fieldAttributes, methodAttributes }
  · intro fits
    exact ⟨fits.strings, ⟨fits.interfaces, fun _ _ => trivial⟩,
      ⟨fits.fields, fits.fieldAttributes⟩, ⟨fits.methods, fits.methodAttributes⟩,
      fits.attributes, trivial⟩

/-- Nothing but a length can be in the way of writing a class file, and each length only beyond the
range of its own field. The count of the pool is one of the fields, for which no pool is too
long. -/
theorem encode_succeeds_iff {c : ClassFile} (built : c.pool.Reachable) :
    ((∃ bytes, c.encode = .ok bytes) ↔ c.LengthsFit) ∧
      (¬c.LengthsFit → c.encode = .error .outOfRange) ∧
      (∀ fault, c.encode = .error fault → fault = .outOfRange) ∧
      c.pool.count.toNat = c.pool.slots.size ∧ c.pool.slots.size ≤ 0xFFFF := by
  have wellFormed := built.wellFormed
  have stopped := stoppedUnless_lengthsFit wellFormed
  refine ⟨?_, stopped.toBytes_eq_error, fun _ => stopped.eq_outOfRange,
    Pool.toNat_count wellFormed.size_le, wellFormed.size_le⟩
  simp only [encode_eq_ok_iff]
  exact stopped.exists_emits_iff

/-- A class file with one string, each character of which takes three bytes. -/
def spelledOut (n : Nat) : ClassFile where
  version := .jdk 8
  pool := .ofConstants [.utf8 (.text (String.ofList (List.replicate n 'あ')))]
  flags := ⟨0⟩
  thisClass := 0
  superClass := 0
  interfaces := []
  fields := []
  methods := []
  attributes := []

theorem length_encode_replicate (n : Nat) :
    (ModifiedUtf8.encode (List.replicate n 'あ')).length = 3 * n := by
  induction n with
  | zero => rfl
  | succ n ih =>
    have first : ModifiedUtf8.encode (List.replicate (n + 1) 'あ') =
        ModifiedUtf8.encode ['あ'] ++ ModifiedUtf8.encode (List.replicate n 'あ') := rfl
    have three : (ModifiedUtf8.encode ['あ']).length = 3 := rfl
    simp only [first, List.length_append, three, ih]
    omega

theorem reachable_spelledOut (n : Nat) : (spelledOut n).pool.Reachable :=
  Pool.reachable_ofConstants (Nat.le_of_ble_eq_true rfl)

theorem lengthsFit_spelledOut_iff {n : Nat} : (spelledOut n).LengthsFit ↔ 3 * n ≤ 0xFFFF := by
  have strings := (reachable_spelledOut n).wellFormed.constants_fit_iff
  simp only [spelledOut, Pool.constants_ofConstants, List.forall_mem_singleton, Constant.Fits,
    JavaString.toBytes, String.toList_ofList, length_encode_replicate] at strings
  constructor
  · intro fits
    exact strings.mpr fits.strings
  · intro short
    exact {
      strings := strings.mp short
      interfaces := Nat.zero_le _
      fields := Nat.zero_le _
      methods := Nat.zero_le _
      attributes := ⟨Nat.zero_le _, by simp [spelledOut]⟩
      fieldAttributes := by simp [spelledOut]
      methodAttributes := by simp [spelledOut]
    }

/-- What counts is the number of bytes: 21846 characters are too many if each takes three. -/
theorem encode_spelledOut :
    (∃ bytes, (spelledOut 21845).encode = .ok bytes) ∧
      (spelledOut 21846).encode = .error .outOfRange := by
  obtain ⟨succeeds, _⟩ := encode_succeeds_iff (reachable_spelledOut 21845)
  obtain ⟨_, fails, _⟩ := encode_succeeds_iff (reachable_spelledOut 21846)
  exact ⟨succeeds.mpr (lengthsFit_spelledOut_iff.mpr (by decide)),
    fails fun fits => absurd (lengthsFit_spelledOut_iff.mp fits) (by decide)⟩

end ClassFile

end ClassFormat
