import ClassFormat.Bytes.Source
import ClassFormat.Proofs.Bytes.FixedWidth

/-!
Which bytes a reading takes to come to a value. Main statements: `run_eq_ok_iff` for a list of
bytes and `drainFrom_of_reads` for a source that hands its bytes out in pieces; both consume the
bytes of the value and none behind them.
-/
namespace ClassFormat

namespace Reading

variable {α β : Type}

/-- The reading gives the value once it got exactly these bytes. -/
inductive Reads : Reading α → List UInt8 → α → Prop where
  | done (v : α) : Reads (done v) [] v
  | take {n : Nat} {next : List UInt8 → Reading α} {chunk rest : List UInt8} {v : α} :
      chunk.length = n → Reads (next chunk) rest v → Reads (take n next) (chunk ++ rest) v

@[simp] theorem reads_done_iff {v w : α} {bytes : List UInt8} :
    (done v).Reads bytes w ↔ bytes = [] ∧ v = w := by
  constructor
  · intro h
    cases h
    exact ⟨rfl, rfl⟩
  · rintro ⟨rfl, rfl⟩
    exact .done v

@[simp] theorem reads_refuse_iff {fault : DecodeFault} {v : α} {bytes : List UInt8} :
    (refuse fault).Reads bytes v ↔ False := by
  constructor
  · intro h
    cases h
  · exact False.elim

theorem reads_take_iff {n : Nat} {next : List UInt8 → Reading α} {v : α} {bytes : List UInt8} :
    (take n next).Reads bytes v ↔
      ∃ chunk rest, chunk.length = n ∧ bytes = chunk ++ rest ∧ (next chunk).Reads rest v := by
  constructor
  · intro h
    cases h with
    | take full later => exact ⟨_, _, full, rfl, later⟩
  · rintro ⟨chunk, rest, full, rfl, later⟩
    exact .take full later

@[simp] theorem bind_eq (r : Reading α) (f : α → Reading β) : r >>= f = r.bind f := rfl

@[simp] theorem pure_eq (v : α) : (pure v : Reading α) = done v := rfl

theorem bind_assoc {γ : Type} (r : Reading α) (f : α → Reading β) (g : β → Reading γ) :
    (r.bind f).bind g = r.bind fun v => (f v).bind g := by
  induction r with
  | done v => rfl
  | refuse fault => rfl
  | take n next ih => exact congrArg (take n) (funext ih)

theorem reads_bind_iff {r : Reading α} {f : α → Reading β} {v : β} {bytes : List UInt8} :
    (r.bind f).Reads bytes v ↔
      ∃ u front back, bytes = front ++ back ∧ r.Reads front u ∧ (f u).Reads back v := by
  constructor
  · intro h
    induction r generalizing bytes with
    | done u => exact ⟨u, [], bytes, rfl, .done u, h⟩
    | refuse fault => exact absurd h reads_refuse_iff.mp
    | take n next ih =>
      obtain ⟨chunk, rest, full, rfl, later⟩ := reads_take_iff.mp h
      obtain ⟨u, front, back, rfl, first, second⟩ := ih chunk later
      exact ⟨u, chunk ++ front, back, (List.append_assoc ..).symm, .take full first, second⟩
  · rintro ⟨u, front, back, rfl, first, second⟩
    induction first with
    | done u => exact second
    | take full _ ih =>
      rw [List.append_assoc]
      exact .take full (ih second)

theorem reads_bytes_iff {n : Nat} {found bytes : List UInt8} :
    (Reading.bytes n).Reads bytes found ↔ bytes = found ∧ found.length = n := by
  constructor
  · intro h
    obtain ⟨chunk, rest, full, rfl, later⟩ := reads_take_iff.mp h
    obtain ⟨rfl, rfl⟩ := reads_done_iff.mp later
    exact ⟨List.append_nil _, full⟩
  · rintro ⟨rfl, full⟩
    exact reads_take_iff.mpr ⟨bytes, [], full, (List.append_nil _).symm, .done bytes⟩

theorem reads_value_iff [FixedWidth α] [LawfulFixedWidth α]
    (narrow : FixedWidth.width α ≤ streamWidth) {v : α} {bytes : List UInt8} :
    (value α).Reads bytes v ↔ bytes = FixedWidth.encode v := by
  rw [value, if_pos narrow]
  constructor
  · intro h
    obtain ⟨chunk, rest, full, rfl, later⟩ := reads_take_iff.mp h
    rw [FixedWidth.extract_of_length chunk full] at later
    obtain ⟨rfl, rfl⟩ := reads_done_iff.mp later
    rw [FixedWidth.encode_decode chunk full, List.append_nil]
  · rintro rfl
    refine reads_take_iff.mpr ⟨FixedWidth.encode v, [], by simp, (List.append_nil _).symm, ?_⟩
    rw [FixedWidth.extract_of_length _ (by simp), FixedWidth.decode_encode]
    exact .done v

theorem reads_value_bind_iff [FixedWidth α] [LawfulFixedWidth α]
    (narrow : FixedWidth.width α ≤ streamWidth) {f : α → Reading β} {v : β}
    {bytes : List UInt8} :
    ((value α).bind f).Reads bytes v ↔
      ∃ u back, bytes = FixedWidth.encode u ++ back ∧ (f u).Reads back v := by
  simp only [reads_bind_iff, reads_value_iff narrow]
  constructor
  · rintro ⟨u, front, back, rfl, rfl, later⟩
    exact ⟨u, back, rfl, later⟩
  · rintro ⟨u, back, rfl, later⟩
    exact ⟨u, _, back, rfl, rfl, later⟩

theorem runFrom_of_reads {r : Reading α} {bytes : List UInt8} {v : α} (h : r.Reads bytes v)
    (consumed : Nat) (rest : List UInt8) :
    r.runFrom consumed (bytes ++ rest) = ⟨.ok v, consumed + bytes.length, rest⟩ := by
  induction h generalizing consumed with
  | done v => rfl
  | @take n next chunk later v full _ ih =>
    have split : (chunk ++ later ++ rest).splitAt n = (chunk, later ++ rest) := by
      rw [List.append_assoc, List.splitAt_eq, List.take_left' full, List.drop_left' full]
    simp only [runFrom, split, ↓reduceIte, ih, List.length_append, full, Nat.add_assoc]

theorem reads_of_runFrom {r : Reading α} {consumed : Nat} {input : List UInt8} {v : α}
    (accepted : (r.runFrom consumed input).result = .ok v) :
    ∃ bytes, r.Reads bytes v ∧ input = bytes ++ (r.runFrom consumed input).rest := by
  induction r generalizing consumed input with
  | done u =>
    cases Except.ok.inj accepted
    exact ⟨[], .done v, rfl⟩
  | refuse fault => cases accepted
  | take n next ih =>
    simp only [runFrom, List.splitAt_eq] at accepted ⊢
    split at accepted
    · rename_i full
      obtain ⟨bytes, later, rest⟩ := ih _ accepted
      refine ⟨input.take n ++ bytes, .take full later, ?_⟩
      rw [if_pos full, List.append_assoc, ← rest, List.take_append_drop]
    · cases accepted

/-- On a list of bytes a reading succeeds exactly when the list starts with the bytes of a value,
and what is behind them is left. -/
theorem run_eq_ok_iff {r : Reading α} {input rest : List UInt8} {v : α} {consumed : Nat} :
    r.run input = ⟨.ok v, consumed, rest⟩ ↔
      ∃ bytes, r.Reads bytes v ∧ input = bytes ++ rest ∧ consumed = bytes.length := by
  constructor
  · intro accepted
    obtain ⟨bytes, reads, split⟩ := reads_of_runFrom (congrArg Reply.result accepted)
    have again := runFrom_of_reads reads 0 (r.run input).rest
    rw [run] at accepted again
    rw [← split, accepted, Reply.mk.injEq, Nat.zero_add] at again
    exact ⟨bytes, reads, by rw [split, accepted], again.2.1⟩
  · rintro ⟨bytes, reads, rfl, rfl⟩
    rw [run, runFrom_of_reads reads, Nat.zero_add]

end Reading

namespace Source

/-- Every call of the source hands out at least one byte while there are any. -/
def Generous (s : Source) : Prop := ∀ call, 0 < s.limit call

/-- No request loses bytes or changes their order. -/
theorem gatherOnto_append (s : Source) (n : Nat) (found : List UInt8) :
    (s.gatherOnto n found).1 ++ (s.gatherOnto n found).2.pending = found.reverse ++ s.pending := by
  fun_induction gatherOnto s n found with
  | case1 => rfl
  | case2 => rfl
  | case3 s n found _ _ now later split after ih =>
    have both : now ++ later = s.pending := by
      rw [List.splitAt_eq, Prod.mk.injEq] at split
      rw [← split.1, ← split.2, List.take_append_drop]
    rw [ih, List.reverse_append, List.reverse_reverse, List.append_assoc, both]

theorem gather_append (s : Source) (n : Nat) :
    (s.gather n).1 ++ (s.gather n).2.pending = s.pending :=
  s.gatherOnto_append n []

/-- The schedule by which a source hands out its bytes stays as it is. -/
theorem gatherOnto_limit (s : Source) (n : Nat) (found : List UInt8) :
    (s.gatherOnto n found).2.limit = s.limit := by
  fun_induction gatherOnto s n found with
  | case1 => rfl
  | case2 => rfl
  | case3 => assumption

theorem Generous.gather {s : Source} (generous : s.Generous) (n : Nat) :
    (s.gather n).2.Generous := by
  intro call
  rw [Source.gather, gatherOnto_limit]
  exact generous call

/-- A generous source gives as many bytes as are wanted, if it has them. -/
theorem Generous.length_gatherOnto {s : Source} (generous : s.Generous) (n : Nat)
    (found : List UInt8) :
    (s.gatherOnto n found).1.length = found.length + min n s.pending.length := by
  fun_induction gatherOnto s n found with
  | case1 s n found none =>
    have limit := generous s.calls
    have zero : n = 0 := by simp only [grant] at none; omega
    simp [zero]
  | case2 s n found _ used =>
    rw [List.isEmpty_iff.mp used]
    simp
  | case3 s n found _ _ now later split after ih =>
    have granted : s.grant n ≤ n := Nat.min_le_left ..
    rw [List.splitAt_eq, Prod.mk.injEq] at split
    have rest : after.pending = s.pending.drop (s.grant n) := split.2.symm
    rw [ih generous, List.length_append, List.length_reverse, ← split.1, List.length_take, rest,
      List.length_drop]
    omega

theorem Generous.gather_eq {s : Source} (generous : s.Generous) {chunk rest : List UInt8}
    (pending : s.pending = chunk ++ rest) :
    (s.gather chunk.length).1 = chunk ∧ (s.gather chunk.length).2.pending = rest := by
  have length : (s.gather chunk.length).1.length = chunk.length := by
    rw [Source.gather, generous.length_gatherOnto, pending]
    simp
  exact List.append_inj (pending ▸ s.gather_append chunk.length) length

end Source

namespace Reading

variable {α : Type}

/-- On a generous source a reading consumes the bytes of a value, however they are handed out. -/
theorem drainFrom_of_reads {r : Reading α} {bytes : List UInt8} {v : α} (h : r.Reads bytes v)
    {source : Source} (generous : source.Generous) {rest : List UInt8}
    (pending : source.pending = bytes ++ rest) (consumed : Nat) :
    ∃ after, r.drainFrom consumed source = ⟨.ok v, consumed + bytes.length, after⟩ ∧
      after.pending = rest ∧ after.Generous := by
  induction h generalizing source consumed with
  | done v => exact ⟨source, rfl, pending, generous⟩
  | @take n next chunk later v full _ ih =>
    rw [List.append_assoc] at pending
    have gathered := generous.gather_eq pending
    rw [full] at gathered
    obtain ⟨after, drained, left⟩ := ih (generous.gather n) gathered.2 (consumed + n)
    refine ⟨after, ?_, left⟩
    simp only [drainFrom, gathered.1, ↓reduceIte, drained, List.length_append, full,
      Nat.add_assoc]

theorem reads_of_drainFrom {r : Reading α} {consumed : Nat} {source : Source} {v : α}
    (accepted : (r.drainFrom consumed source).result = .ok v) : ∃ bytes, r.Reads bytes v := by
  induction r generalizing consumed source with
  | done u =>
    cases Except.ok.inj accepted
    exact ⟨[], .done v⟩
  | refuse fault => cases accepted
  | take n next ih =>
    simp only [drainFrom] at accepted
    split at accepted
    · rename_i full
      obtain ⟨bytes, later⟩ := ih _ accepted
      exact ⟨_, .take full later⟩
    · cases accepted

end Reading

end ClassFormat
