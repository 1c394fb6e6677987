import ClassFormat.Proofs.Bytes.Refusals
import ClassFormat.Proofs.ClassFile.Codec

/-!
Which bytes a class file is refused for, and with which fault: another magic number, and within the
pool a count of zero, a tag or a kind of method handle that does not exist, and a wide constant for
which one slot is left. Main statements: `refuses_iff` of constants, pools and class files.
-/
namespace ClassFormat

open Reading (bind_eq pure_eq reads_bind_iff refuses_refuse_iff refuses_done_iff refuses_bind_iff
  refuses_value_bind_iff refuses_bind_tolerant_iff tolerant_done tolerant_bytes tolerant_value
  tolerant_table)

namespace Constant

variable {bytes : List UInt8} {fault : DecodeFault}

theorem tolerant_one {α : Type} [FixedWidth α]
    (narrow : FixedWidth.width α ≤ Reading.streamWidth) (build : α → Constant) :
    ((Reading.value α).bind fun u => .done (build u)).Tolerant :=
  (tolerant_value narrow).bind fun u => tolerant_done (build u)

theorem refuses_methodHandle_iff :
    (partsReading .methodHandle).Refuses bytes fault ↔
      ∃ byte invalid, ReferenceKind.ofByte byte = .error invalid ∧
        bytes = FixedWidth.encode byte ∧ fault = .invalidReferenceKind invalid := by
  simp only [partsReading, bind_eq, pure_eq, refuses_value_bind_iff (α := UInt8) (by decide)]
  constructor
  · rintro ⟨byte, back, rfl, later⟩
    split at later
    · rename_i invalid unknown
      obtain ⟨rfl, rfl⟩ := refuses_refuse_iff.mp later
      exact ⟨byte, invalid, unknown, List.append_nil _, rfl⟩
    · rename_i kind _
      exact absurd later (tolerant_one (by decide) (methodHandle kind) back fault)
  · rintro ⟨byte, invalid, unknown, rfl, rfl⟩
    refine ⟨byte, [], (List.append_nil _).symm, ?_⟩
    rw [unknown]
    exact .refuse _

/-- Behind the tag only the kind of a method handle may be wrong. -/
theorem tolerant_parts {kind : ConstantKind} (other : kind ≠ .methodHandle) :
    (partsReading kind).Tolerant := by
  cases kind with
  | methodHandle => exact absurd rfl other
  | utf8 =>
    exact (tolerant_value (by decide)).bind fun length =>
      (tolerant_bytes length.toNat).bind fun _ => tolerant_done _
  | integer | float | long | double | classRef | stringRef | methodType | moduleRef | packageRef =>
    exact tolerant_one (by decide) _
  | fieldRef | methodRef | interfaceMethodRef | nameAndType | dynamic | invokeDynamic =>
    exact (tolerant_value (by decide)).bind fun _ => tolerant_one (by decide) _

theorem refuses_iff :
    Constant.reading.Refuses bytes fault ↔
      (∃ tag, ConstantKind.ofTag? tag = none ∧ bytes = FixedWidth.encode tag ∧
        fault = .unexpectedConstantPoolTag tag) ∨
      ∃ byte invalid, ReferenceKind.ofByte byte = .error invalid ∧
        bytes = FixedWidth.encode ConstantKind.methodHandle.tag ++ FixedWidth.encode byte ∧
        fault = .invalidReferenceKind invalid := by
  rw [Constant.reading, bind_eq, refuses_value_bind_iff (by decide)]
  constructor
  · rintro ⟨tag, back, rfl, later⟩
    split at later
    · rename_i unknown
      obtain ⟨rfl, rfl⟩ := refuses_refuse_iff.mp later
      exact .inl ⟨tag, unknown, List.append_nil _, rfl⟩
    · rename_i kind known
      by_cases handle : kind = .methodHandle
      · subst handle
        obtain ⟨byte, invalid, unknown, rfl, rfl⟩ := refuses_methodHandle_iff.mp later
        rw [← ConstantKind.ofTag?_eq_some_iff.mp known]
        exact .inr ⟨byte, invalid, unknown, rfl, rfl⟩
      · exact absurd later (tolerant_parts handle back fault)
  · rintro (⟨tag, unknown, rfl, rfl⟩ | ⟨byte, invalid, unknown, rfl, rfl⟩)
    · refine ⟨tag, [], (List.append_nil _).symm, ?_⟩
      rw [unknown]
      exact .refuse _
    · refine ⟨ConstantKind.methodHandle.tag, _, rfl, ?_⟩
      rw [ConstantKind.ofTag?_eq_some_iff.mpr rfl]
      exact refuses_methodHandle_iff.mpr ⟨byte, invalid, unknown, rfl, rfl⟩

end Constant

namespace Pool

variable {bytes : List UInt8} {fault : DecodeFault}

/-- No further constant can be read when some slots are left: the bytes are refused, or they are
those of a wide constant and one slot is left. -/
def Stops (left : Nat) (bytes : List UInt8) (fault : DecodeFault) : Prop :=
  Constant.reading.Refuses bytes fault ∨
    left = 1 ∧ fault = .constantPoolOverrun ∧
      ∃ c, c.isWide = true ∧ Constant.reading.Reads bytes c

theorem refuses_constantsOnto_succ_iff {n : Nat} {found : List Constant} :
    (constantsOnto (n + 1) found).Refuses bytes fault ↔ Stops (n + 1) bytes fault ∨
      ∃ c front back, bytes = front ++ back ∧ Constant.reading.Reads front c ∧ c.width ≤ n + 1 ∧
        (constantsOnto (n + 1 - c.width) (c :: found)).Refuses back fault := by
  rw [constantsOnto, refuses_bind_iff]
  constructor
  · rintro (first | ⟨c, front, back, rfl, reads, later⟩)
    · exact .inl (.inl first)
    split at later
    · rename_i wide
      have width : c.width = 2 := by rw [Constant.width, if_pos wide]
      cases n with
      | zero =>
        obtain ⟨rfl, rfl⟩ := refuses_refuse_iff.mp later
        rw [List.append_nil]
        exact .inl (.inr ⟨rfl, rfl, c, wide, reads⟩)
      | succ m => exact .inr ⟨c, front, back, rfl, reads, by omega, by rw [width]; exact later⟩
    · rename_i narrow
      have width : c.width = 1 := by rw [Constant.width, if_neg narrow]
      exact .inr ⟨c, front, back, rfl, reads, by omega, by rw [width]; exact later⟩
  · rintro ((first | ⟨last, rfl, c, wide, reads⟩) | ⟨c, front, back, rfl, reads, room, later⟩)
    · exact .inl first
    · obtain rfl : n = 0 := Nat.succ.inj last
      refine .inr ⟨c, bytes, [], (List.append_nil _).symm, reads, ?_⟩
      rw [if_pos wide]
      exact .refuse _
    · refine .inr ⟨c, front, back, rfl, reads, ?_⟩
      rw [Constant.width] at room later
      split at room
      · rename_i wide
        obtain ⟨m, rfl⟩ : ∃ m, n = m + 1 := ⟨n - 1, by omega⟩
        rw [if_pos wide] at later ⊢
        exact later
      · rename_i narrow
        rw [if_neg narrow] at later ⊢
        exact later

/-- The constants of a pool are refused where the first of them stops. The induction is on the slots
left, as that of `reads_constantsOnto_iff`. -/
theorem refuses_constantsOnto_iff {left : Nat} {found : List Constant} :
    (constantsOnto left found).Refuses bytes fault ↔
      ∃ cs front back, bytes = front ++ back ∧ (∀ c ∈ cs, c.Faithful) ∧
        (Writing.all (cs.map Constant.writing)).Emits front ∧ span cs < left ∧
        Stops (left - span cs) back fault := by
  induction left using Nat.strongRecOn generalizing found bytes with
  | ind left ih =>
    cases left with
    | zero =>
      rw [constantsOnto, refuses_done_iff]
      constructor
      · exact False.elim
      · rintro ⟨_, _, _, _, _, _, impossible, _⟩
        exact Nat.not_lt_zero _ impossible
    | succ n =>
      rw [refuses_constantsOnto_succ_iff]
      constructor
      · rintro (stops | ⟨c, front, back, rfl, reads, room, later⟩)
        · exact ⟨[], [], bytes, rfl, by simp, by simp, Nat.succ_pos n, stops⟩
        obtain ⟨emits, faithful⟩ := Constant.reads_iff_emits.mp reads
        have positive := c.width_le
        obtain ⟨cs, front', back', rfl, faithful', emits', room', stops⟩ :=
          (ih (n + 1 - c.width) (by omega)).mp later
        refine ⟨c :: cs, front ++ front', back', (List.append_assoc ..).symm,
          List.forall_mem_cons.mpr ⟨faithful, faithful'⟩,
          emits_constants_cons_iff.mpr ⟨front, front', rfl, emits, emits'⟩, ?_, ?_⟩
        · rw [span_cons]
          omega
        · rw [span_cons, ← Nat.sub_sub]
          exact stops
      · rintro ⟨cs, front, back, rfl, faithful, emits, room, stops⟩
        cases cs with
        | nil =>
          obtain rfl := Writing.emits_all_nil_iff.mp emits
          exact .inl stops
        | cons c cs =>
          obtain ⟨front, middle, rfl, first, second⟩ := emits_constants_cons_iff.mp emits
          obtain ⟨faithful, faithful'⟩ := List.forall_mem_cons.mp faithful
          have positive := c.width_le
          rw [span_cons] at room
          rw [span_cons, ← Nat.sub_sub] at stops
          refine .inr ⟨c, front, middle ++ back, List.append_assoc ..,
            Constant.reads_iff_emits.mpr ⟨first, faithful⟩, by omega, ?_⟩
          exact (ih (n + 1 - c.width) (by omega)).mpr
            ⟨cs, middle, back, rfl, faithful', second, by omega, stops⟩

theorem refuses_iff {count : UInt16} :
    (Pool.reading count).Refuses bytes fault ↔
      (count = 0 ∧ bytes = [] ∧ fault = .emptyConstantPool) ∨
      ∃ cs front back, bytes = front ++ back ∧ (∀ c ∈ cs, c.Faithful) ∧
        (Writing.all (cs.map Constant.writing)).Emits front ∧ 1 + span cs < count.toNat ∧
        Stops (count.toNat - (1 + span cs)) back fault := by
  rw [Pool.reading]
  split
  · rename_i zero
    subst zero
    simp [refuses_refuse_iff]
  · rename_i some
    have positive : count.toNat ≠ 0 := fun zero => some (UInt16.toNat_inj.mp zero)
    have room : ∀ n, n < count.toNat - 1 ↔ 1 + n < count.toNat := by omega
    rw [refuses_bind_tolerant_iff fun _ => tolerant_done _, refuses_constantsOnto_iff]
    simp only [some, false_and, false_or, room, Nat.sub_sub]

end Pool

theorem Attribute.tolerant : Attribute.reading.Tolerant :=
  (tolerant_value (by decide)).bind fun _ => (tolerant_value (by decide)).bind fun length =>
    (tolerant_bytes length.toNat).bind fun _ => tolerant_done _

theorem Attribute.tolerant_table : Attribute.tableReading.Tolerant :=
  (tolerant_value (by decide)).bind fun count =>
    Reading.tolerant_table Attribute.tolerant count.toNat

theorem Member.tolerant {o : FlagOwner} : (Member.reading : Reading (Member o)).Tolerant :=
  (tolerant_value (by decide)).bind fun _ => (tolerant_value (by decide)).bind fun _ =>
    (tolerant_value (by decide)).bind fun _ => Attribute.tolerant_table.bind fun _ =>
    tolerant_done _

theorem Member.tolerant_table {o : FlagOwner} :
    (Member.tableReading : Reading (List (Member o))).Tolerant :=
  (tolerant_value (by decide)).bind fun count =>
    Reading.tolerant_table Member.tolerant count.toNat

namespace ClassFile

variable {bytes : List UInt8} {fault : DecodeFault}

/-- All that follows the pool is accepted as it is. -/
theorem refuses_iff :
    ClassFile.reading.Refuses bytes fault ↔
      (∃ start, start ≠ magic ∧ bytes = FixedWidth.encode start ∧
        fault = .notAClassFile start) ∨
      ∃ (minor major count : UInt16) (back : List UInt8),
        bytes = FixedWidth.encode magic ++ (FixedWidth.encode minor ++ (FixedWidth.encode major ++
          (FixedWidth.encode count ++ back))) ∧
        (Pool.reading count).Refuses back fault := by
  have value := tolerant_value (α := UInt16) (by decide)
  have indices := value.bind fun count => Reading.tolerant_table value count.toNat
  rw [reading_eq, refuses_value_bind_iff (by decide)]
  constructor
  · rintro ⟨start, _, rfl, later⟩
    split at later
    · rename_i wrong
      obtain ⟨rfl, rfl⟩ := refuses_refuse_iff.mp later
      exact .inl ⟨start, wrong, List.append_nil _, rfl⟩
    · rename_i right
      obtain ⟨minor, _, rfl, later₁⟩ := (refuses_value_bind_iff (by decide)).mp later
      obtain ⟨major, _, rfl, later₂⟩ := (refuses_value_bind_iff (by decide)).mp later₁
      rw [refuses_bind_tolerant_iff fun _ => value.bind fun _ => value.bind fun _ =>
        value.bind fun _ => indices.bind fun _ => Member.tolerant_table.bind fun _ =>
        Member.tolerant_table.bind fun _ => Attribute.tolerant_table.bind fun _ =>
        tolerant_done _] at later₂
      obtain ⟨count, back, rfl, refuses⟩ := (refuses_value_bind_iff (by decide)).mp later₂
      rw [Decidable.of_not_not right]
      exact .inr ⟨minor, major, count, back, rfl, refuses⟩
  · rintro (⟨start, wrong, rfl, rfl⟩ | ⟨minor, major, count, back, rfl, refuses⟩)
    · refine ⟨start, [], (List.append_nil _).symm, ?_⟩
      rw [if_pos wrong]
      exact .refuse _
    · refine ⟨magic, _, rfl, ?_⟩
      rw [if_neg (not_not_intro rfl)]
      refine (refuses_value_bind_iff (by decide)).mpr ⟨minor, _, rfl, ?_⟩
      refine (refuses_value_bind_iff (by decide)).mpr ⟨major, _, rfl, ?_⟩
      exact refuses_bind_iff.mpr (.inl ((refuses_value_bind_iff (by decide)).mpr
        ⟨count, back, rfl, refuses⟩))

/-- The end of the input and the failures of a source are no faults of the bytes. -/
theorem ne_truncated_of_refuses (h : ClassFile.reading.Refuses bytes fault) :
    fault ≠ .truncated := by
  rcases refuses_iff.mp h with ⟨start, _, _, rfl⟩ | ⟨_, _, count, back, _, inPool⟩
  · simp
  rcases Pool.refuses_iff.mp inPool with ⟨_, _, rfl⟩ | ⟨_, _, _, _, _, _, _, stops⟩
  · simp
  rcases stops with inConstant | ⟨_, rfl, _⟩
  · rcases Constant.refuses_iff.mp inConstant with ⟨tag, _, _, rfl⟩ | ⟨byte, invalid, _, _, rfl⟩
    · simp
    · simp
  · simp

end ClassFile

end ClassFormat
