import ClassFormat.Constant.Codec
import ClassFormat.Proofs.Bytes.Lengths
import ClassFormat.Proofs.Text.ModifiedUtf8

/-!
Constants are read exactly from the bytes that they are written as. Main statement:
`reads_iff_emits`.
-/
namespace ClassFormat

theorem ConstantKind.ofTag?_eq_some_iff {tag : UInt8} {kind : ConstantKind} :
    ofTag? tag = some kind ↔ kind.tag = tag := by
  constructor
  · intro found
    simpa using List.find?_some found
  · rintro rfl
    cases kind <;> rfl

theorem ConstantKind.isWide_iff {kind : ConstantKind} :
    kind.isWide = true ↔ kind = .long ∨ kind = .double := by
  cases kind <;> decide

/-- The bytes that announce a constant. -/
def ConstantKind.knownTags : List UInt8 :=
  [1, 3, 4, 5, 6, 7, 8, 9, 10, 11, 12, 15, 16, 17, 18, 19, 20]

theorem ConstantKind.ofTag?_eq_none_iff {tag : UInt8} : ofTag? tag = none ↔ tag ∉ knownTags := by
  have tags : knownTags = all.map ConstantKind.tag := rfl
  rw [ofTag?, List.find?_eq_none, tags, List.mem_map]
  simp

theorem ReferenceKind.ofByte_eq_ok_iff {byte : UInt8} {kind : ReferenceKind} :
    ofByte byte = .ok kind ↔ kind.toByte = byte := by
  constructor
  · intro accepted
    rw [ofByte] at accepted
    split at accepted
    · rename_i found
      cases Except.ok.inj accepted
      simpa using List.find?_some found
    · cases accepted
  · rintro rfl
    cases kind <;> rfl

theorem ReferenceKind.ofByte_eq_error_iff {byte : UInt8} {invalid : InvalidReferenceKind} :
    ofByte byte = .error invalid ↔ invalid = ⟨byte⟩ ∧ (byte < 1 ∨ 9 < byte) := by
  have outside : all.find? (·.toByte == byte) = none ↔ byte < 1 ∨ 9 < byte := by
    have bytes : all.map toByte = [1, 2, 3, 4, 5, 6, 7, 8, 9] := rfl
    have unlisted : all.find? (·.toByte == byte) = none ↔ byte ∉ all.map toByte := by
      rw [List.find?_eq_none, List.mem_map]
      simp
    rw [unlisted, bytes]
    simp only [List.mem_cons, List.not_mem_nil, or_false, ← UInt8.toNat_inj, UInt8.lt_iff_toNat_lt,
      UInt8.reduceToNat]
    omega
  rw [← outside, ofByte]
  cases all.find? (·.toByte == byte) with
  | some kind => simp
  | none => simp [eq_comm]

namespace Constant

open Reading (streamWidth bind_eq pure_eq reads_done_iff reads_refuse_iff reads_bind_iff
  reads_bytes_iff reads_value_bind_iff)
open Writing (emits_value_iff emits_value_append_iff emits_bytes_iff emits_length_append_iff)

/-- A string that a constant holds is kept as bytes only where it is no text. -/
def Faithful : Constant → Prop
  | utf8 value => value.Faithful
  | _ => True

section Parts

variable {α β : Type} [FixedWidth α] [LawfulFixedWidth α] [FixedWidth β] [LawfulFixedWidth β]
  {c : Constant} {bytes : List UInt8}

theorem reads_one_iff (narrow : FixedWidth.width α ≤ streamWidth) {build : α → Constant} :
    ((Reading.value α).bind fun u => .done (build u)).Reads bytes c ↔
      ∃ u, build u = c ∧ (Writing.value u).Emits bytes := by
  simp only [reads_value_bind_iff narrow, reads_done_iff, emits_value_iff narrow]
  constructor
  · rintro ⟨u, back, rfl, rfl, rfl⟩
    exact ⟨u, rfl, List.append_nil _⟩
  · rintro ⟨u, rfl, rfl⟩
    exact ⟨u, [], (List.append_nil _).symm, rfl, rfl⟩

theorem reads_two_iff (narrow : FixedWidth.width α ≤ streamWidth)
    (narrow' : FixedWidth.width β ≤ streamWidth) {build : α → β → Constant} :
    ((Reading.value α).bind fun u => (Reading.value β).bind fun v => .done (build u v)).Reads
        bytes c ↔
      ∃ u v, build u v = c ∧ (Writing.value u ++ Writing.value v).Emits bytes := by
  simp only [reads_value_bind_iff narrow, reads_one_iff narrow', emits_value_append_iff narrow]
  constructor
  · rintro ⟨u, back, rfl, v, rfl, second⟩
    exact ⟨u, v, rfl, back, rfl, second⟩
  · rintro ⟨u, v, rfl, back, rfl, second⟩
    exact ⟨u, back, rfl, v, rfl, second⟩

end Parts

variable {c : Constant} {bytes : List UInt8}

theorem reads_utf8_iff :
    (partsReading .utf8).Reads bytes c ↔
      ∃ s : JavaString, c = utf8 s ∧ (utf8 s).partsWriting.Emits bytes ∧ s.Faithful := by
  simp only [partsReading, bind_eq, pure_eq, reads_value_bind_iff (α := UInt16) (by decide),
    reads_bind_iff, reads_bytes_iff, reads_done_iff, partsWriting,
    emits_length_append_iff UInt16 2 rfl, emits_bytes_iff]
  constructor
  · rintro ⟨length, _, rfl, _, chunk, _, rfl, ⟨rfl, full⟩, rfl, rfl⟩
    obtain ⟨form, faithful⟩ := JavaString.ofBytes_eq_iff.mp (rfl : JavaString.ofBytes chunk = _)
    refine ⟨_, rfl, ⟨length, chunk, ?_, by simp, form⟩, faithful⟩
    rw [← form]
    exact full.symm
  · rintro ⟨s, rfl, ⟨length, _, announced, rfl, rfl⟩, faithful⟩
    refine ⟨length, s.toBytes, rfl, s.toBytes, s.toBytes, [], by simp, ⟨rfl, announced.symm⟩, rfl,
      ?_⟩
    rw [JavaString.ofBytes_eq_iff.mpr ⟨rfl, faithful⟩]

theorem reads_methodHandle_iff :
    (partsReading .methodHandle).Reads bytes c ↔
      ∃ kind target, c = methodHandle kind target ∧ c.partsWriting.Emits bytes := by
  simp only [partsReading, bind_eq, pure_eq, reads_value_bind_iff (α := UInt8) (by decide)]
  constructor
  · rintro ⟨byte, back, rfl, later⟩
    split at later
    · exact absurd later reads_refuse_iff.mp
    · rename_i kind accepted
      obtain ⟨target, rfl, second⟩ := (reads_one_iff (by decide)).mp later
      refine ⟨kind, target, rfl, ?_⟩
      rw [partsWriting, ReferenceKind.ofByte_eq_ok_iff.mp accepted,
        emits_value_append_iff (by decide)]
      exact ⟨back, rfl, second⟩
  · rintro ⟨kind, target, rfl, emits⟩
    rw [partsWriting, emits_value_append_iff (by decide)] at emits
    obtain ⟨back, rfl, second⟩ := emits
    refine ⟨kind.toByte, back, rfl, ?_⟩
    rw [ReferenceKind.ofByte_eq_ok_iff.mpr rfl]
    exact (reads_one_iff (by decide)).mpr ⟨target, rfl, second⟩

theorem reads_parts_iff {kind : ConstantKind} :
    (partsReading kind).Reads bytes c ↔
      c.kind = kind ∧ c.partsWriting.Emits bytes ∧ c.Faithful := by
  constructor
  · intro h
    cases kind with
    | utf8 =>
      obtain ⟨s, rfl, emits, faithful⟩ := reads_utf8_iff.mp h
      exact ⟨rfl, emits, faithful⟩
    | methodHandle =>
      obtain ⟨kind, target, rfl, emits⟩ := reads_methodHandle_iff.mp h
      exact ⟨rfl, emits, trivial⟩
    | integer | float | long | double | classRef | stringRef | methodType | moduleRef
    | packageRef =>
      obtain ⟨value, rfl, emits⟩ := (reads_one_iff (by decide)).mp h
      exact ⟨rfl, emits, trivial⟩
    | fieldRef | methodRef | interfaceMethodRef | nameAndType | dynamic | invokeDynamic =>
      obtain ⟨first, second, rfl, emits⟩ := (reads_two_iff (by decide) (by decide)).mp h
      exact ⟨rfl, emits, trivial⟩
  · rintro ⟨rfl, emits, faithful⟩
    cases c with
    | utf8 s => exact reads_utf8_iff.mpr ⟨s, rfl, emits, faithful⟩
    | methodHandle kind target => exact reads_methodHandle_iff.mpr ⟨kind, target, rfl, emits⟩
    | integer value | float value | long value | double value | classRef value | stringRef value
    | methodType value | moduleRef value | packageRef value =>
      exact (reads_one_iff (by decide)).mpr ⟨value, rfl, emits⟩
    | fieldRef first second | methodRef first second | interfaceMethodRef first second
    | nameAndType first second | dynamic first second | invokeDynamic first second =>
      exact (reads_two_iff (by decide) (by decide)).mpr ⟨first, second, rfl, emits⟩

theorem reads_iff_emits :
    Constant.reading.Reads bytes c ↔ c.writing.Emits bytes ∧ c.Faithful := by
  rw [Constant.reading, bind_eq, reads_value_bind_iff (by decide), Constant.writing,
    emits_value_append_iff (by decide)]
  constructor
  · rintro ⟨tag, back, rfl, later⟩
    split at later
    · exact absurd later reads_refuse_iff.mp
    · rename_i kind found
      obtain ⟨rfl, emits, faithful⟩ := reads_parts_iff.mp later
      rw [← ConstantKind.ofTag?_eq_some_iff.mp found]
      exact ⟨⟨back, rfl, emits⟩, faithful⟩
  · rintro ⟨⟨back, rfl, emits⟩, faithful⟩
    have found : ConstantKind.ofTag? c.tag = some c.kind := ConstantKind.ofTag?_eq_some_iff.mpr rfl
    refine ⟨c.tag, back, rfl, ?_⟩
    rw [found]
    exact reads_parts_iff.mpr ⟨rfl, emits, faithful⟩

/-- The string of the constant, if it has one, is short enough for its length to be announced. -/
def Fits : Constant → Prop
  | utf8 value => value.toBytes.length ≤ 0xFFFF
  | _ => True

theorem stoppedUnless_fits (c : Constant) : c.writing.StoppedUnless c.Fits := by
  apply Writing.StoppedUnless.value_append (by decide)
  cases c with
  | utf8 value =>
    exact ((Writing.stoppedUnless_length 2 value.toBytes.length).append
      (Writing.stoppedUnless_bytes value.toBytes)).congr ((and_iff_left trivial).trans
        Nat.lt_succ_iff)
  | _ => exact Writing.stoppedUnless_of_fault_eq_none rfl

theorem exists_emits_iff : (∃ bytes, c.writing.Emits bytes) ↔ c.Fits :=
  c.stoppedUnless_fits.exists_emits_iff

/-- A wide constant is its tag and eight bytes. -/
theorem form_of_isWide (wide : c.isWide = true)
    (emits : c.writing.Emits bytes) :
    ∃ tag later, bytes = tag :: later ∧ later.length = 8 ∧ (tag = 5 ∨ tag = 6) := by
  have form {α : Type} [FixedWidth α] (narrow : FixedWidth.width α ≤ streamWidth)
      {tag : UInt8} {v : α} (emits : (Writing.value tag ++ Writing.value v).Emits bytes) :
      bytes = tag :: FixedWidth.encode v := by
    obtain ⟨_, rfl, value⟩ := (emits_value_append_iff (by decide)).mp emits
    rw [(emits_value_iff narrow).mp value, FixedWidth.encode_byte]
    rfl
  cases c with
  | long value => exact ⟨5, _, form (by decide) emits, FixedWidth.length_encode value, .inl rfl⟩
  | double value => exact ⟨6, _, form (by decide) emits, FixedWidth.length_encode value, .inr rfl⟩
  | _ => cases wide

theorem ne_nil_of_emits (emits : c.writing.Emits bytes) : bytes ≠ [] := by
  rintro rfl
  obtain ⟨back, split, _⟩ := (emits_value_append_iff (by decide)).mp emits
  have length := congrArg List.length split
  rw [List.length_append, FixedWidth.length_encode, List.length_nil] at length
  have one : FixedWidth.width UInt8 = 1 := rfl
  omega

end Constant

end ClassFormat
