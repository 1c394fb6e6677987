import ClassFormat.Proofs.ClassFile.Codec
import ClassFormat.Proofs.Pool.Runs

/-!
Decoding and encoding undo each other: on all bytes that are accepted, and for all class files that
can be written, alone or one behind the other in a stream.
-/
namespace ClassFormat.ClassFile

theorem encode_eq_ok_iff {c : ClassFile} {bytes : List UInt8} :
    c.encode = .ok bytes ↔ c.writing.Emits bytes :=
  Writing.toBytes_eq_ok_iff

theorem decode_eq_ok_iff {c : ClassFile} {bytes : List UInt8} :
    decode bytes = .ok c ↔ reading.Reads bytes c := by
  constructor
  · intro accepted
    rw [decode] at accepted
    split at accepted
    · cases accepted
    · rename_i d found
      split at accepted
      · rename_i used
        cases Except.ok.inj accepted
        obtain ⟨front, reads, split⟩ := Reading.reads_of_runFrom found
        have left : (reading.runFrom 0 bytes).rest = [] := List.isEmpty_iff.mp used
        rw [left, List.append_nil] at split
        exact split ▸ reads
      · cases accepted
  · intro reads
    have run : reading.run bytes = ⟨.ok c, bytes.length, []⟩ :=
      Reading.run_eq_ok_iff.mpr ⟨bytes, reads, (List.append_nil _).symm, rfl⟩
    rw [decode, run]
    rfl

/-- However the bytes of a class file are handed out, none behind them are taken. -/
theorem decodeFrom_of_reads {c : ClassFile} {bytes : List UInt8} (h : reading.Reads bytes c)
    {source : Source} (generous : source.Generous) {rest : List UInt8}
    (pending : source.pending = bytes ++ rest) :
    ∃ after, decodeFrom source = (.ok c, after) ∧ after.pending = rest ∧ after.Generous := by
  obtain ⟨after, drained, left⟩ := Reading.drainFrom_of_reads h generous pending 0
  refine ⟨after, ?_, left⟩
  rw [decodeFrom, Reading.drain, drained]

/-- Whatever is accepted is written back byte for byte. -/
theorem encode_eq_of_decode {bytes : List UInt8} {c : ClassFile}
    (accepted : decode bytes = .ok c) : c.encode = .ok bytes :=
  encode_eq_ok_iff.mpr (reads_iff_emits.mp (decode_eq_ok_iff.mp accepted)).1

/-- A class file with what is easily lost: bits without a meaning, a gap, a string that is no text,
the payload of a NaN, a constant that is there twice, and a body that nothing interprets. -/
def peculiar : ClassFile where
  version := .jdk 8
  pool := .ofConstants [.utf8 (.text "A"), .classRef 1, .long 7, .utf8 (.raw [0x00, 0xFF]),
    .float ⟨0x7FC00001⟩, .integer 5, .integer 5]
  flags := ⟨0x0821⟩
  thisClass := 2
  superClass := 0
  interfaces := []
  fields := []
  methods := []
  attributes := [⟨1, [0xDE, 0xAD]⟩]

def peculiarBytes : List UInt8 :=
  [0xCA, 0xFE, 0xBA, 0xBE, 0x00, 0x00, 0x00, 0x34,
    0x00, 0x09,
    0x01, 0x00, 0x01, 0x41,
    0x07, 0x00, 0x01,
    0x05, 0x00, 0x00, 0x00, 0x00, 0x00, 0x00, 0x00, 0x07,
    0x01, 0x00, 0x02, 0x00, 0xFF,
    0x04, 0x7F, 0xC0, 0x00, 0x01,
    0x03, 0x00, 0x00, 0x00, 0x05,
    0x03, 0x00, 0x00, 0x00, 0x05,
    0x08, 0x21, 0x00, 0x02, 0x00, 0x00, 0x00, 0x00, 0x00, 0x00, 0x00, 0x00,
    0x00, 0x01, 0x00, 0x01, 0x00, 0x00, 0x00, 0x02, 0xDE, 0xAD]

theorem encode_peculiar :
    decode peculiarBytes = .ok peculiar ∧ peculiar.encode = .ok peculiarBytes := by
  have accepted : decode peculiarBytes = .ok peculiar := rfl
  exact ⟨accepted, encode_eq_of_decode accepted⟩

/-- A class file with a pool that operations can build, and the bytes that it is written as. -/
structure Encoded (c : ClassFile) (bytes : List UInt8) : Prop where
  built : c.pool.Reachable
  faithful : c.pool.Faithful
  written : c.encode = .ok bytes

theorem Encoded.reads {c : ClassFile} {bytes : List UInt8} (h : Encoded c bytes) :
    reading.Reads bytes c :=
  reads_iff_emits.mpr ⟨encode_eq_ok_iff.mp h.written, h.built.wellFormed, h.faithful⟩

theorem Encoded.decodeFrom_eq {c : ClassFile} {bytes : List UInt8} (h : Encoded c bytes)
    {source : Source} (generous : source.Generous) {rest : List UInt8}
    (pending : source.pending = bytes ++ rest) :
    ∃ after, decodeFrom source = (.ok c, after) ∧ after.pending = rest ∧ after.Generous :=
  decodeFrom_of_reads h.reads generous pending

/-- Decodes `n` class files one behind the other, whether or not the one before was accepted. -/
def decodeEach : Nat → Source → List (Except DecodeError ClassFile) × Source
  | 0, source => ([], source)
  | n + 1, source =>
    let (first, after) := decodeFrom source
    let (later, last) := decodeEach n after
    (first :: later, last)

theorem decodeEach_of_encoded (files : List (ClassFile × List UInt8))
    (encoded : ∀ f ∈ files, Encoded f.1 f.2) {source : Source} (generous : source.Generous)
    {rest : List UInt8} (pending : source.pending = (files.map (·.2)).flatten ++ rest) :
    ∃ after, decodeEach files.length source = (files.map fun f => .ok f.1, after) ∧
      after.pending = rest := by
  induction files generalizing source with
  | nil => exact ⟨source, rfl, pending⟩
  | cons f files ih =>
    obtain ⟨first, later⟩ := List.forall_mem_cons.mp encoded
    rw [List.map_cons, List.flatten_cons, List.append_assoc] at pending
    obtain ⟨middle, decoded, left, generous'⟩ := first.decodeFrom_eq generous pending
    obtain ⟨after, decoded', left'⟩ := ih later generous' left
    refine ⟨after, ?_, left'⟩
    simp only [List.length_cons, decodeEach, decoded, decoded', List.map_cons]

theorem decode_eq_of_encode {c : ClassFile} {bytes : List UInt8} (h : Encoded c bytes) :
    (∀ rest, reading.run (bytes ++ rest) = ⟨.ok c, bytes.length, rest⟩) ∧
      (∀ (source : Source) (rest : List UInt8), source.Generous →
        source.pending = bytes ++ rest →
        ∃ after, decodeFrom source = (.ok c, after) ∧ after.pending = rest) ∧
      decode bytes = .ok c ∧
      ∀ (files : List (ClassFile × List UInt8)) (source : Source) (rest : List UInt8),
        (∀ f ∈ files, Encoded f.1 f.2) → source.Generous →
        source.pending = bytes ++ ((files.map (·.2)).flatten ++ rest) →
        ∃ after, decodeEach (files.length + 1) source =
          (.ok c :: files.map (fun f => .ok f.1), after) ∧ after.pending = rest := by
  refine ⟨?_, ?_, decode_eq_ok_iff.mpr h.reads, ?_⟩
  · intro rest
    exact Reading.run_eq_ok_iff.mpr ⟨bytes, h.reads, rfl, rfl⟩
  · intro source rest generous pending
    obtain ⟨after, decoded, left, _⟩ := h.decodeFrom_eq generous pending
    exact ⟨after, decoded, left⟩
  · intro files source rest encoded generous pending
    rw [← List.append_assoc] at pending
    exact decodeEach_of_encoded ((c, bytes) :: files) (List.forall_mem_cons.mpr ⟨h, encoded⟩)
      generous pending

theorem encoded_peculiar : Encoded peculiar peculiarBytes := by
  have built : peculiar.pool.Reachable :=
    Pool.reachable_iff_wellFormed.mpr (Pool.wellFormed_iff.mpr ⟨_, rfl, by decide⟩)
  have noText : ¬ ModifiedUtf8.Canonical [0x00, 0xFF] :=
    ModifiedUtf8.decode_eq_none_iff.mp (by decide)
  have faithful : peculiar.pool.Faithful := by
    intro c member
    rw [peculiar, Pool.constants_ofConstants] at member
    simp only [List.mem_cons, List.not_mem_nil, or_false] at member
    rcases member with rfl | rfl | rfl | rfl | rfl | rfl | rfl
    · trivial
    · trivial
    · trivial
    · exact noText
    · trivial
    · trivial
    · trivial
  exact { built, faithful, written := rfl }

/-- Two class files from a source that hands out one byte at a time. -/
theorem decode_peculiar_twice :
    ∃ after, decodeEach 2 ⟨peculiarBytes ++ peculiarBytes ++ [0xCA], fun _ => 1, 0, .endOfInput⟩ =
      ([.ok peculiar, .ok peculiar], after) ∧ after.pending = [0xCA] := by
  refine (decode_eq_of_encode encoded_peculiar).2.2.2 [(peculiar, peculiarBytes)] _ [0xCA] ?_ ?_ ?_
  · intro f member
    rw [List.mem_singleton.mp member]
    exact encoded_peculiar
  · intro call
    exact Nat.one_pos
  · simp

end ClassFormat.ClassFile
