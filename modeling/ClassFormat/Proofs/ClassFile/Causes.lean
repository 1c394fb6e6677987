import ClassFormat.Proofs.ClassFile.Streams

/-!
Where the cause of a decode error lies. The offset of an error is where decoding stopped; for each
fault it determines which of the bytes are to blame. Main statement: `causedAt_of_decode`.
-/
namespace ClassFormat.ClassFile

theorem byte_at (front : List UInt8) (byte : UInt8) (rest : List UInt8) :
    (front ++ byte :: rest)[front.length]? = some byte := by
  rw [List.getElem?_append_right (Nat.le_refl _), Nat.sub_self]
  rfl

/-- The constant that ends at the offset has eight bytes behind its tag and starts in the last of
the slots that are announced; those before it are taken by the constants in front of it. -/
def OverrunsAt (input : List UInt8) (offset : Nat) : Prop :=
  ∃ (cs : List Constant) (c : Constant),
    (Writing.all (cs.map Constant.writing)).toBytes = .ok ((input.take (offset - 9)).drop 10) ∧
    c.writing.toBytes = .ok ((input.take offset).drop (offset - 9)) ∧
    (c.kind = .long ∨ c.kind = .double) ∧
    1 + Pool.span cs + 1 = BigEndian.ofBytes ((input.take 10).drop 8)

/-- What is wrong with the bytes, and where, if decoding stops with a fault at an offset. A source
of bytes in memory does not fail, and no value is asked for in another size than its own. -/
def CausedAt (input : List UInt8) (offset : Nat) : DecodeFault → Prop
  | .notAClassFile start =>
    offset = 4 ∧ 4 ≤ input.length ∧ start.toNat = BigEndian.ofBytes (input.take 4) ∧
      start ≠ 0xCAFEBABE
  | .emptyConstantPool => offset = 10 ∧ input[8]? = some 0 ∧ input[9]? = some 0
  | .unexpectedConstantPoolTag tag =>
    1 ≤ offset ∧ input[offset - 1]? = some tag ∧ tag ∉ ConstantKind.knownTags
  | .invalidReferenceKind invalid =>
    2 ≤ offset ∧ input[offset - 2]? = some 15 ∧ input[offset - 1]? = some invalid.byte ∧
      (invalid.byte < 1 ∨ 9 < invalid.byte)
  | .constantPoolOverrun =>
    19 ≤ offset ∧ (input[offset - 9]? = some 5 ∨ input[offset - 9]? = some 6) ∧
      OverrunsAt input offset
  | .truncated => offset = input.length
  | .unexpectedData => offset < input.length ∧ ∃ c, decode (input.take offset) = .ok c
  | .readFail _ | .sizeMismatch _ => False

/-- The bytes in front of the constants. -/
def poolPreamble (minor major count : UInt16) : List UInt8 :=
  FixedWidth.encode magic ++ (FixedWidth.encode minor ++ (FixedWidth.encode major ++
    FixedWidth.encode count))

theorem length_poolPreamble (minor major count : UInt16) :
    (poolPreamble minor major count).length = 10 := by
  simp only [poolPreamble, List.length_append, FixedWidth.length_encode]
  rfl

theorem drop_poolPreamble (minor major count : UInt16) :
    (poolPreamble minor major count).drop 8 = FixedWidth.encode count := by
  have front : (FixedWidth.encode magic ++ (FixedWidth.encode minor ++
      FixedWidth.encode major)).length = 8 := by
    simp only [List.length_append, FixedWidth.length_encode]
    rfl
  rw [poolPreamble, ← List.append_assoc (FixedWidth.encode minor), ← List.append_assoc,
    List.drop_left' front]

theorem causedAt_of_overrun {minor major count : UInt16} {cs : List Constant} {c : Constant}
    {before last : List UInt8} (emits : (Writing.all (cs.map Constant.writing)).Emits before)
    (emits' : c.writing.Emits last) (wide : c.isWide = true)
    (full : 1 + Pool.span cs + 1 = count.toNat) (rest : List UInt8) :
    CausedAt (poolPreamble minor major count ++ (before ++ (last ++ rest)))
      (10 + (before.length + last.length)) .constantPoolOverrun := by
  obtain ⟨tag, later, rfl, size, wideTag⟩ := Constant.form_of_isWide wide emits'
  have ten := length_poolPreamble minor major count
  have nine : (tag :: later).length = 9 := by rw [List.length_cons, size]
  have start : 10 + (before.length + (tag :: later).length) - 9 = 10 + before.length := by omega
  have front : (poolPreamble minor major count ++ before).length = 10 + before.length := by
    rw [List.length_append, ten]
  have whole : (poolPreamble minor major count ++ before ++ (tag :: later)).length =
      10 + (before.length + (tag :: later).length) := by
    rw [List.length_append, front, Nat.add_assoc]
  have tagAt := byte_at (poolPreamble minor major count ++ before) tag (later ++ rest)
  rw [front, List.append_assoc] at tagAt
  refine ⟨by omega, ?_, cs, c, ?_, ?_, ConstantKind.isWide_iff.mp wide, ?_⟩
  · rw [start, List.cons_append, tagAt]
    rcases wideTag with rfl | rfl
    · exact .inl rfl
    · exact .inr rfl
  · rw [start, ← List.append_assoc, List.take_left' front, List.drop_left' ten]
    exact Writing.toBytes_eq_ok_iff.mpr emits
  · rw [start, ← List.append_assoc, ← List.append_assoc, List.take_left' whole,
      List.drop_left' front]
    exact Writing.toBytes_eq_ok_iff.mpr emits'
  · rw [List.take_left' ten, drop_poolPreamble, FixedWidth.ofBytes_encode]
    exact full

theorem causedAt_of_refuses {front : List UInt8} {fault : DecodeFault}
    (h : reading.Refuses front fault) (rest : List UInt8) :
    CausedAt (front ++ rest) front.length fault := by
  rcases refuses_iff.mp h with ⟨start, wrong, rfl, rfl⟩ | ⟨minor, major, count, back, form, inPool⟩
  · have four : (FixedWidth.encode start).length = 4 := FixedWidth.length_encode start
    refine ⟨four, ?_, ?_, wrong⟩
    · rw [List.length_append, four]
      omega
    · rw [List.take_left' four, FixedWidth.ofBytes_encode]
      rfl
  have ten := length_poolPreamble minor major count
  obtain rfl : front = poolPreamble minor major count ++ back := by
    simp only [form, poolPreamble, List.append_assoc]
  rcases Pool.refuses_iff.mp inPool with
    ⟨rfl, rfl, rfl⟩ | ⟨cs, before, last, rfl, _, emits, room, stops⟩
  · rw [List.append_nil]
    exact ⟨ten, rfl, rfl⟩
  -- A fault within a constant stands at the last byte that was consumed; for an overrun the whole
  -- constant was.
  rcases stops with inConstant | ⟨one, rfl, c, wide, reads⟩
  · rcases Constant.refuses_iff.mp inConstant with
      ⟨tag, unknown, rfl, rfl⟩ | ⟨byte, invalid, unknown, rfl, rfl⟩
    · rw [FixedWidth.encode_byte, ← List.append_assoc, List.length_append, List.append_assoc]
      exact ⟨Nat.le_add_left .., byte_at .., ConstantKind.ofTag?_eq_none_iff.mp unknown⟩
    · obtain ⟨rfl, outside⟩ := ReferenceKind.ofByte_eq_error_iff.mp unknown
      have tag : ConstantKind.methodHandle.tag = 15 := rfl
      rw [FixedWidth.encode_byte, FixedWidth.encode_byte, tag, ← List.append_assoc,
        List.length_append, List.append_assoc]
      have second := byte_at (poolPreamble minor major count ++ before ++ [15]) byte rest
      rw [List.length_append, List.append_assoc] at second
      exact ⟨Nat.le_add_left .., byte_at .., second, outside⟩
  · rw [List.append_assoc, List.append_assoc, List.length_append, List.length_append, ten]
    exact causedAt_of_overrun emits (Constant.reads_iff_emits.mp reads).1 wide (by omega) rest

/-- The offset of a decode error leads to its cause. -/
theorem causedAt_of_decode {input : List UInt8} {offset : Nat} {fault : DecodeFault}
    (refused : decode input = .error ⟨offset, fault⟩) : CausedAt input offset fault := by
  rcases decode_eq_error_iff.mp refused with
    ⟨front, rest, refuses, rfl, rfl⟩ | ⟨_, rfl, here⟩ | ⟨c, front, rest, reads, more, rfl, rfl, rfl⟩
  · exact causedAt_of_refuses refuses rest
  · exact here
  · refine ⟨?_, c, ?_⟩
    · have positive := List.length_pos_iff.mpr more
      rw [List.length_append]
      omega
    · rw [List.take_left' rfl]
      exact decode_eq_ok_iff.mpr reads

/-- Two slots are announced, of which a string takes the first and a `long` starts in the second. -/
def overrunBytes : List UInt8 :=
  [0xCA, 0xFE, 0xBA, 0xBE, 0x00, 0x00, 0x00, 0x34, 0x00, 0x03,
    0x01, 0x00, 0x01, 0x41,
    0x05, 0x00, 0x00, 0x00, 0x00, 0x00, 0x00, 0x00, 0x2A]

theorem causedAt_overrunBytes :
    decode overrunBytes = .error ⟨23, .constantPoolOverrun⟩ ∧
      (overrunBytes[14]? = some 5 ∨ overrunBytes[14]? = some 6) ∧ OverrunsAt overrunBytes 23 := by
  have refused : decode overrunBytes = .error ⟨23, .constantPoolOverrun⟩ := rfl
  obtain ⟨_, wideTag, overruns⟩ := causedAt_of_decode refused
  exact ⟨refused, wideTag, overruns⟩

end ClassFormat.ClassFile
