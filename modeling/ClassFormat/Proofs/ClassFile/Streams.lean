import ClassFormat.Proofs.ClassFile.Refusals
import ClassFormat.Proofs.ClassFile.RoundTrip

/-!
The three things that decoding can make of bytes: a class file, a fault, or a want of more bytes;
on a list of bytes and on a source that hands them out in pieces. Main statements:
`decode_prefix_free`, `decodeFrom_of_generous` and `decode_of_same_front`.
-/
namespace ClassFormat

theorem Ending.fault_eq_truncated_iff {ending : Ending} :
    ending.fault = .truncated ↔ ending = .endOfInput ∨ ending = .unexpectedEnd := by
  cases ending with
  | endOfInput => simp [fault]
  | unexpectedEnd => simp [fault]
  | failure reason => simp [fault]

theorem Ending.fault_eq_readFail_iff {ending : Ending} {reason : String} :
    ending.fault = .readFail reason ↔ ending = .failure reason := by
  cases ending with
  | endOfInput => simp [fault]
  | unexpectedEnd => simp [fault]
  | failure reason => simp [fault]

namespace ClassFile

variable {bytes rest : List UInt8} {c : ClassFile} {fault : DecodeFault}

/-- The class file at the start of a list of bytes, with the bytes that are left behind it. -/
def decodeFront (bytes : List UInt8) : Except DecodeError ClassFile × List UInt8 :=
  let reply := reading.run bytes
  match reply.result with
  | .ok c => (.ok c, reply.rest)
  | .error fault => (.error ⟨reply.consumed, fault⟩, reply.rest)

theorem decodeFront_of_reads (h : reading.Reads bytes c) (rest : List UInt8) :
    decodeFront (bytes ++ rest) = (.ok c, rest) := by
  rw [decodeFront, Reading.run, Reading.runFrom_of_reads h]

theorem decodeFront_of_refuses (h : reading.Refuses bytes fault) (rest : List UInt8) :
    decodeFront (bytes ++ rest) = (.error ⟨bytes.length, fault⟩, rest) := by
  rw [decodeFront, Reading.run, Reading.runFrom_of_refuses h, Nat.zero_add]

theorem decodeFront_of_starves (h : reading.Starves bytes) :
    decodeFront bytes = (.error ⟨bytes.length, .truncated⟩, []) := by
  rw [decodeFront, Reading.run, Reading.runFrom_of_starves h, Nat.zero_add]

theorem decodeFront_eq_ok_iff {input : List UInt8} :
    decodeFront input = (.ok c, rest) ↔ ∃ bytes, reading.Reads bytes c ∧ input = bytes ++ rest := by
  constructor
  · intro accepted
    rcases reading.reads_or_refuses_or_starves input with
      ⟨d, bytes, after, rfl, reads⟩ | ⟨fault, bytes, after, rfl, refuses⟩ | starves
    · rw [decodeFront_of_reads reads, Prod.mk.injEq, Except.ok.injEq] at accepted
      obtain ⟨rfl, rfl⟩ := accepted
      exact ⟨bytes, reads, rfl⟩
    · rw [decodeFront_of_refuses refuses] at accepted
      cases accepted
    · rw [decodeFront_of_starves starves] at accepted
      cases accepted
  · rintro ⟨bytes, reads, rfl⟩
    exact decodeFront_of_reads reads rest

theorem decodeFront_eq_error_iff {input : List UInt8} {offset : Nat} :
    decodeFront input = (.error ⟨offset, fault⟩, rest) ↔
      (∃ bytes, reading.Refuses bytes fault ∧ input = bytes ++ rest ∧ offset = bytes.length) ∨
        reading.Starves input ∧ fault = .truncated ∧ offset = input.length ∧ rest = [] := by
  constructor
  · intro refused
    rcases reading.reads_or_refuses_or_starves input with
      ⟨d, bytes, after, rfl, reads⟩ | ⟨cause, bytes, after, rfl, refuses⟩ | starves
    · rw [decodeFront_of_reads reads] at refused
      cases refused
    · rw [decodeFront_of_refuses refuses] at refused
      cases refused
      exact .inl ⟨bytes, refuses, rfl, rfl⟩
    · rw [decodeFront_of_starves starves] at refused
      cases refused
      exact .inr ⟨starves, rfl, rfl, rfl⟩
  · rintro (⟨bytes, refuses, rfl, rfl⟩ | ⟨starves, rfl, rfl, rfl⟩)
    · exact decodeFront_of_refuses refuses rest
    · exact decodeFront_of_starves starves

theorem decode_of_starves (h : reading.Starves bytes) :
    decode bytes = .error ⟨bytes.length, .truncated⟩ := by
  rw [decode, Reading.run, Reading.runFrom_of_starves h, Nat.zero_add]

theorem decode_of_refuses (h : reading.Refuses bytes fault) (rest : List UInt8) :
    decode (bytes ++ rest) = .error ⟨bytes.length, fault⟩ := by
  rw [decode, Reading.run, Reading.runFrom_of_refuses h, Nat.zero_add]

theorem decode_append_of_reads (h : reading.Reads bytes c) (more : rest ≠ []) :
    decode (bytes ++ rest) = .error ⟨bytes.length, .unexpectedData⟩ := by
  have used : ¬rest.isEmpty = true := fun empty => more (List.isEmpty_iff.mp empty)
  rw [decode, Reading.run, Reading.runFrom_of_reads h, Nat.zero_add]
  exact if_neg used

/-- Decoding fails at bytes that are refused, at the end of bytes that do not suffice, and behind a
class file that more bytes follow. -/
theorem decode_eq_error_iff {input : List UInt8} {offset : Nat} :
    decode input = .error ⟨offset, fault⟩ ↔
      (∃ front rest, reading.Refuses front fault ∧ input = front ++ rest ∧
        offset = front.length) ∨
      (reading.Starves input ∧ fault = .truncated ∧ offset = input.length) ∨
      ∃ c front rest, reading.Reads front c ∧ rest ≠ [] ∧ input = front ++ rest ∧
        fault = .unexpectedData ∧ offset = front.length := by
  constructor
  · intro refused
    rcases reading.reads_or_refuses_or_starves input with
      ⟨c, front, rest, rfl, reads⟩ | ⟨cause, front, rest, rfl, refuses⟩ | starves
    · by_cases more : rest = []
      · subst more
        rw [List.append_nil, decode_eq_ok_iff.mpr reads] at refused
        cases refused
      · rw [decode_append_of_reads reads more] at refused
        cases refused
        exact .inr (.inr ⟨c, front, rest, reads, more, rfl, rfl, rfl⟩)
    · rw [decode_of_refuses refuses] at refused
      cases refused
      exact .inl ⟨front, rest, refuses, rfl, rfl⟩
    · rw [decode_of_starves starves] at refused
      cases refused
      exact .inr (.inl ⟨starves, rfl, rfl⟩)
  · rintro (⟨front, rest, refuses, rfl, rfl⟩ | ⟨starves, rfl, rfl⟩ |
      ⟨c, front, rest, reads, more, rfl, rfl, rfl⟩)
    · exact decode_of_refuses refuses rest
    · exact decode_of_starves starves
    · exact decode_append_of_reads reads more

/-- No class file is the start of another: one that is cut short is missing bytes where it ends,
and what follows it is noticed at the first byte. -/
theorem decode_prefix_free {bytes : List UInt8} {c : ClassFile} (accepted : decode bytes = .ok c) :
    (∀ front, front <+: bytes → front ≠ bytes →
      decode front = .error ⟨front.length, .truncated⟩) ∧
    ∀ rest, rest ≠ [] → decode (bytes ++ rest) = .error ⟨bytes.length, .unexpectedData⟩ := by
  have reads : reading.Reads bytes c := decode_eq_ok_iff.mp accepted
  constructor
  · rintro front ⟨back, whole⟩ shorter
    have missing : back ≠ [] := by
      rintro rfl
      exact shorter ((List.append_nil front).symm.trans whole)
    rw [← whole] at reads
    exact decode_of_starves (reads.starves missing)
  · intro rest more
    exact decode_append_of_reads reads more

theorem decode_peculiar_cut_and_extended :
    decode peculiarBytes = .ok peculiar ∧
      decode (peculiarBytes.take 20) = .error ⟨20, .truncated⟩ ∧
      decode (peculiarBytes ++ [0xCA]) = .error ⟨68, .unexpectedData⟩ := by
  have accepted : decode peculiarBytes = .ok peculiar := rfl
  obtain ⟨cut, extended⟩ := decode_prefix_free accepted
  exact ⟨accepted, cut _ (List.take_prefix 20 _) (by decide), extended [0xCA] (by decide)⟩

theorem decodeFrom_of_refuses (h : reading.Refuses bytes fault) {source : Source}
    (generous : source.Generous) (pending : source.pending = bytes ++ rest) :
    ∃ after, decodeFrom source = (.error ⟨bytes.length, fault⟩, after) ∧ after.pending = rest := by
  obtain ⟨after, drained, left⟩ := Reading.drainFrom_of_refuses h generous pending 0
  refine ⟨after, ?_, left⟩
  rw [decodeFrom, Reading.drain, drained, Nat.zero_add]

theorem decodeFrom_of_starves {source : Source} (h : reading.Starves source.pending)
    (generous : source.Generous) :
    ∃ after, decodeFrom source = (.error ⟨source.pending.length, source.ending.fault⟩, after) ∧
      after.pending = [] := by
  obtain ⟨after, drained, left⟩ := Reading.drainFrom_of_starves h generous 0
  refine ⟨after, ?_, left⟩
  rw [decodeFrom, Reading.drain, drained, Nat.zero_add]

/-- Neither the pieces in which a source hands out its bytes nor the way it ends have a part in what
decoding makes of the bytes. The source has handed out what was used and no more; only if the bytes
do not suffice, its ending is reported behind the last of them. -/
theorem decodeFrom_of_generous {source : Source} (generous : source.Generous) :
    (∀ c rest, decodeFront source.pending = (.ok c, rest) →
      ∃ bytes after, decodeFrom source = (.ok c, after) ∧ after.pending = rest ∧
        source.pending = bytes ++ rest ∧ decode bytes = .ok c) ∧
    (∀ offset fault rest, decodeFront source.pending = (.error ⟨offset, fault⟩, rest) →
      fault ≠ .truncated →
      ∃ bytes after, decodeFrom source = (.error ⟨offset, fault⟩, after) ∧ after.pending = rest ∧
        source.pending = bytes ++ rest ∧ bytes.length = offset) ∧
    (∀ offset rest, decodeFront source.pending = (.error ⟨offset, .truncated⟩, rest) →
      ∃ fault after, decodeFrom source = (.error ⟨source.pending.length, fault⟩, after) ∧
        after.pending = [] ∧
        (fault = .truncated ↔ source.ending = .endOfInput ∨ source.ending = .unexpectedEnd) ∧
        ∀ reason, fault = .readFail reason ↔ source.ending = .failure reason) ∧
    ∀ other : Source, other.Generous → other.pending = source.pending →
      other.ending = source.ending →
      (decodeFrom other).1 = (decodeFrom source).1 ∧
        (decodeFrom other).2.pending = (decodeFrom source).2.pending := by
  refine ⟨?_, ?_, ?_, ?_⟩
  · intro c rest accepted
    obtain ⟨bytes, reads, pending⟩ := decodeFront_eq_ok_iff.mp accepted
    obtain ⟨after, decoded, left, _⟩ := decodeFrom_of_reads reads generous pending
    exact ⟨bytes, after, decoded, left, pending, decode_eq_ok_iff.mpr reads⟩
  · intro offset fault rest refused untruncated
    rcases decodeFront_eq_error_iff.mp refused with
      ⟨bytes, refuses, pending, rfl⟩ | ⟨_, truncated, _⟩
    · obtain ⟨after, decoded, left⟩ := decodeFrom_of_refuses refuses generous pending
      exact ⟨bytes, after, decoded, left, pending, rfl⟩
    · exact absurd truncated untruncated
  · intro offset rest refused
    rcases decodeFront_eq_error_iff.mp refused with ⟨_, refuses, _⟩ | ⟨starves, _⟩
    · exact absurd rfl (ne_truncated_of_refuses refuses)
    · obtain ⟨after, decoded, left⟩ := decodeFrom_of_starves starves generous
      exact ⟨_, after, decoded, left, Ending.fault_eq_truncated_iff,
        fun reason => Ending.fault_eq_readFail_iff⟩
  · intro other generous' same_bytes same_ending
    rcases reading.reads_or_refuses_or_starves source.pending with
      ⟨c, bytes, rest, pending, reads⟩ | ⟨fault, bytes, rest, pending, refuses⟩ | starves
    · obtain ⟨after, decoded, left, _⟩ := decodeFrom_of_reads reads generous pending
      obtain ⟨after', decoded', left', _⟩ :=
        decodeFrom_of_reads reads generous' (same_bytes.trans pending)
      rw [decoded, decoded']
      exact ⟨rfl, left'.trans left.symm⟩
    · obtain ⟨after, decoded, left⟩ := decodeFrom_of_refuses refuses generous pending
      obtain ⟨after', decoded', left'⟩ :=
        decodeFrom_of_refuses refuses generous' (same_bytes.trans pending)
      rw [decoded, decoded']
      exact ⟨rfl, left'.trans left.symm⟩
    · obtain ⟨after, decoded, left⟩ := decodeFrom_of_starves starves generous
      obtain ⟨after', decoded', left'⟩ := decodeFrom_of_starves (same_bytes ▸ starves) generous'
      rw [decoded, decoded', same_bytes, same_ending]
      exact ⟨rfl, left'.trans left.symm⟩

/-- A device that fails after twenty bytes, which it handed out in threes at the most. -/
theorem decodeFrom_failing_device :
    ∃ after, decodeFrom ⟨peculiarBytes.take 20, fun _ => 3, 0, .failure "device failed"⟩ =
      (.error ⟨20, .readFail "device failed"⟩, after) ∧ after.pending = [] := by
  have generous :
      (⟨peculiarBytes.take 20, fun _ => 3, 0, .failure "device failed"⟩ : Source).Generous :=
    fun _ => Nat.succ_pos 2
  have short : decodeFront (peculiarBytes.take 20) = (.error ⟨20, .truncated⟩, []) := rfl
  obtain ⟨fault, after, decoded, left, _, reported⟩ :=
    (decodeFrom_of_generous generous).2.2.1 20 [] short
  rw [(reported "device failed").mpr rfl] at decoded
  exact ⟨after, decoded, left⟩

/-- An error that is neither a want of bytes nor an excess of them is a fault of the bytes up to its
offset. -/
theorem refuses_of_decode {input : List UInt8} {offset : Nat}
    (refused : decode input = .error ⟨offset, fault⟩) (untruncated : fault ≠ .truncated)
    (expected : fault ≠ .unexpectedData) :
    ∃ front rest, input = front ++ rest ∧ reading.Refuses front fault ∧ offset = front.length := by
  rcases decode_eq_error_iff.mp refused with
    ⟨front, rest, refuses, split, here⟩ | ⟨_, truncated, _⟩ | ⟨_, _, _, _, _, _, more, _⟩
  · exact ⟨front, rest, split, refuses, here⟩
  · exact absurd truncated untruncated
  · exact absurd more expected

/-- Decoding is decided by the bytes that it consumed. Bytes that agree up to the offset of an error
have the same error, unless bytes are wanted or left over there; and bytes behind those that
sufficed for a result are left as they are. -/
theorem decode_of_same_front :
    (∀ input offset fault, decode input = .error ⟨offset, fault⟩ → fault ≠ .truncated →
      fault ≠ .unexpectedData →
      offset ≤ input.length ∧ ∀ other : List UInt8, other.take offset = input.take offset →
        decode other = .error ⟨offset, fault⟩) ∧
    ∀ source extended : Source, source.Generous → extended.Generous →
      source.ending = .endOfInput →
      (∀ offset, (decodeFrom source).1 ≠ .error ⟨offset, .truncated⟩) →
      ∀ rest, extended.pending = source.pending ++ rest →
        (decodeFrom extended).1 = (decodeFrom source).1 ∧
          (decodeFrom extended).2.pending = (decodeFrom source).2.pending ++ rest := by
  constructor
  · intro input offset fault refused untruncated expected
    obtain ⟨front, rest, rfl, refuses, rfl⟩ := refuses_of_decode refused untruncated expected
    refine ⟨by simp, ?_⟩
    intro other same
    rw [List.take_left] at same
    have split : other = front ++ other.drop front.length := by
      calc other = other.take front.length ++ other.drop front.length :=
            (List.take_append_drop ..).symm
        _ = front ++ other.drop front.length := by rw [same]
    rw [split]
    exact decode_of_refuses refuses _
  · intro source extended generous generous' ending sufficient rest longer
    rcases reading.reads_or_refuses_or_starves source.pending with
      ⟨c, bytes, left, pending, reads⟩ | ⟨fault, bytes, left, pending, refuses⟩ | starves
    · rw [pending, List.append_assoc] at longer
      obtain ⟨after, decoded, left_eq, _⟩ := decodeFrom_of_reads reads generous pending
      obtain ⟨after', decoded', left_eq', _⟩ := decodeFrom_of_reads reads generous' longer
      rw [decoded, decoded', left_eq, left_eq']
      exact ⟨rfl, rfl⟩
    · rw [pending, List.append_assoc] at longer
      obtain ⟨after, decoded, left_eq⟩ := decodeFrom_of_refuses refuses generous pending
      obtain ⟨after', decoded', left_eq'⟩ := decodeFrom_of_refuses refuses generous' longer
      rw [decoded, decoded', left_eq, left_eq']
      exact ⟨rfl, rfl⟩
    · obtain ⟨after, decoded, _⟩ := decodeFrom_of_starves starves generous
      rw [decoded, ending] at sufficient
      exact absurd rfl (sufficient source.pending.length)

/-- A class file up to the tag of its first constant, which is none. -/
def unknownTagBytes : List UInt8 :=
  [0xCA, 0xFE, 0xBA, 0xBE, 0x00, 0x00, 0x00, 0x34, 0x00, 0x02, 0x02]

theorem decode_unknownTag :
    decode (unknownTagBytes ++ [0xFF]) = .error ⟨11, .unexpectedConstantPoolTag 2⟩ ∧
      decode (unknownTagBytes ++ peculiarBytes) = .error ⟨11, .unexpectedConstantPoolTag 2⟩ ∧
      (decodeFrom ⟨peculiarBytes ++ [0xCA], fun _ => 1, 0, .failure "device failed"⟩).1 =
        .ok peculiar ∧
      (decodeFrom ⟨peculiarBytes ++ [0xCA], fun _ => 1, 0, .failure "device failed"⟩).2.pending =
        [0xCA] := by
  obtain ⟨refusals, results⟩ := decode_of_same_front
  have refused : decode (unknownTagBytes ++ [0xFF]) =
      .error ⟨11, .unexpectedConstantPoolTag 2⟩ := rfl
  have again := (refusals _ 11 _ refused (by simp) (by simp)).2
    (unknownTagBytes ++ peculiarBytes) rfl
  have generous : (⟨peculiarBytes, fun _ => 3, 0, .endOfInput⟩ : Source).Generous :=
    fun _ => Nat.succ_pos 2
  have generous' : (⟨peculiarBytes ++ [0xCA], fun _ => 1, 0, .failure "device failed"⟩ :
      Source).Generous := fun _ => Nat.one_pos
  have accepted : decode peculiarBytes = .ok peculiar := rfl
  obtain ⟨after, decoded, left, _⟩ := decodeFrom_of_reads (decode_eq_ok_iff.mp accepted) generous
    (List.append_nil peculiarBytes).symm
  have longer := results _ _ generous generous' rfl (by simp [decoded]) [0xCA] rfl
  rw [decoded, left] at longer
  exact ⟨refused, again, longer⟩

end ClassFile

end ClassFormat
