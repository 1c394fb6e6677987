import ClassFormat.Proofs.Bytes.Reads

/-!
What becomes of a reading that comes to no value: it refuses the bytes it got, or it wants more of
them. Main statement: `reads_or_refuses_or_starves`; for each outcome there is what is reported on
a list of bytes and on a source that hands its bytes out in pieces.
-/
namespace ClassFormat

namespace Reading

variable {α β : Type}

/-- The reading stops for a fault of the bytes, once it got exactly these. -/
inductive Refuses : Reading α → List UInt8 → DecodeFault → Prop where
  | refuse (fault : DecodeFault) : Refuses (refuse fault) [] fault
  | take {n : Nat} {next : List UInt8 → Reading α} {chunk rest : List UInt8}
      {fault : DecodeFault} :
      chunk.length = n → Refuses (next chunk) rest fault →
        Refuses (take n next) (chunk ++ rest) fault

/-- The reading is not done with these bytes and wants more. -/
inductive Starves : Reading α → List UInt8 → Prop where
  | short {n : Nat} {next : List UInt8 → Reading α} {bytes : List UInt8} :
      bytes.length < n → Starves (take n next) bytes
  | take {n : Nat} {next : List UInt8 → Reading α} {chunk rest : List UInt8} :
      chunk.length = n → Starves (next chunk) rest → Starves (take n next) (chunk ++ rest)

theorem reads_or_refuses_or_starves (r : Reading α) (input : List UInt8) :
    (∃ v bytes rest, input = bytes ++ rest ∧ r.Reads bytes v) ∨
      (∃ fault bytes rest, input = bytes ++ rest ∧ r.Refuses bytes fault) ∨ r.Starves input := by
  induction r generalizing input with
  | done v => exact .inl ⟨v, [], input, rfl, .done v⟩
  | refuse fault => exact .inr (.inl ⟨fault, [], input, rfl, .refuse fault⟩)
  | take n next ih =>
    by_cases enough : n ≤ input.length
    · have full : (input.take n).length = n := List.length_take_of_le enough
      have split : input.take n ++ input.drop n = input := List.take_append_drop n input
      rcases ih (input.take n) (input.drop n) with
        ⟨v, bytes, rest, later, reads⟩ | ⟨fault, bytes, rest, later, refuses⟩ | starves
      · rw [later, ← List.append_assoc] at split
        exact .inl ⟨v, _, rest, split.symm, .take full reads⟩
      · rw [later, ← List.append_assoc] at split
        exact .inr (.inl ⟨fault, _, rest, split.symm, .take full refuses⟩)
      · exact .inr (.inr (split ▸ .take full starves))
    · exact .inr (.inr (.short (Nat.lt_of_not_le enough)))

theorem runFrom_of_refuses {r : Reading α} {bytes : List UInt8} {fault : DecodeFault}
    (h : r.Refuses bytes fault) (consumed : Nat) (rest : List UInt8) :
    r.runFrom consumed (bytes ++ rest) = ⟨.error fault, consumed + bytes.length, rest⟩ := by
  induction h generalizing consumed with
  | refuse fault => rfl
  | @take n next chunk later fault full _ ih =>
    have split : (chunk ++ later ++ rest).splitAt n = (chunk, later ++ rest) := by
      rw [List.append_assoc, List.splitAt_eq, List.take_left' full, List.drop_left' full]
    simp only [runFrom, split, full, ↓reduceIte, ih, List.length_append, Nat.add_assoc]

theorem runFrom_of_starves {r : Reading α} {input : List UInt8} (h : r.Starves input)
    (consumed : Nat) :
    r.runFrom consumed input = ⟨.error .truncated, consumed + input.length, []⟩ := by
  induction h generalizing consumed with
  | @short n next input short =>
    have all : input.take n = input := List.take_of_length_le (Nat.le_of_lt short)
    simp only [runFrom, List.splitAt_eq, all, if_neg (Nat.ne_of_lt short)]
  | @take n next chunk later full _ ih =>
    have split : (chunk ++ later).splitAt n = (chunk, later) := by
      rw [List.splitAt_eq, List.take_left' full, List.drop_left' full]
    simp only [runFrom, split, full, ↓reduceIte, ih, List.length_append, Nat.add_assoc]

/-- As long as bytes of a value are missing, the reading wants them. -/
theorem Reads.starves {r : Reading α} {front back : List UInt8} {v : α}
    (h : r.Reads (front ++ back) v) (missing : back ≠ []) : r.Starves front := by
  generalize bytes_eq : front ++ back = bytes at h
  induction h generalizing front with
  | done v => exact absurd (List.append_eq_nil_iff.mp bytes_eq).2 missing
  | @take n next chunk later v full _ ih =>
    by_cases enough : n ≤ front.length
    · have split : front.take n ++ (front.drop n ++ back) = chunk ++ later := by
        rw [← List.append_assoc, List.take_append_drop, bytes_eq]
      have length : (front.take n).length = chunk.length := by
        rw [List.length_take_of_le enough, full]
      obtain ⟨chunk_eq, later_eq⟩ := List.append_inj split length
      rw [← List.take_append_drop n front, chunk_eq]
      exact .take full (ih later_eq)
    · exact .short (Nat.lt_of_not_le enough)

@[simp] theorem refuses_done_iff {v : α} {bytes : List UInt8} {fault : DecodeFault} :
    (done v).Refuses bytes fault ↔ False := by
  constructor
  · intro h
    cases h
  · exact False.elim

theorem refuses_refuse_iff {cause fault : DecodeFault} {bytes : List UInt8} :
    (refuse cause : Reading α).Refuses bytes fault ↔ bytes = [] ∧ fault = cause := by
  constructor
  · intro h
    cases h
    exact ⟨rfl, rfl⟩
  · rintro ⟨rfl, rfl⟩
    exact .refuse fault

theorem refuses_take_iff {n : Nat} {next : List UInt8 → Reading α} {bytes : List UInt8}
    {fault : DecodeFault} :
    (take n next).Refuses bytes fault ↔
      ∃ chunk rest, chunk.length = n ∧ bytes = chunk ++ rest ∧ (next chunk).Refuses rest fault := by
  constructor
  · intro h
    cases h with
    | take full later => exact ⟨_, _, full, rfl, later⟩
  · rintro ⟨chunk, rest, full, rfl, later⟩
    exact .take full later

/-- Of two readings in turn the first refuses, or it comes to a value and the second refuses. -/
theorem refuses_bind_iff {r : Reading α} {f : α → Reading β} {bytes : List UInt8}
    {fault : DecodeFault} :
    (r.bind f).Refuses bytes fault ↔ r.Refuses bytes fault ∨
      ∃ u front back, bytes = front ++ back ∧ r.Reads front u ∧ (f u).Refuses back fault := by
  constructor
  · intro h
    induction r generalizing bytes with
    | done u => exact .inr ⟨u, [], bytes, rfl, .done u, h⟩
    | refuse cause =>
      obtain ⟨rfl, rfl⟩ := refuses_refuse_iff.mp h
      exact .inl (.refuse fault)
    | take n next ih =>
      obtain ⟨chunk, rest, full, rfl, later⟩ := refuses_take_iff.mp h
      rcases ih chunk later with first | ⟨u, front, back, rfl, first, second⟩
      · exact .inl (.take full first)
      · exact .inr ⟨u, chunk ++ front, back, (List.append_assoc ..).symm, .take full first, second⟩
  · rintro (first | ⟨u, front, back, rfl, first, second⟩)
    · induction first with
      | refuse cause => exact .refuse cause
      | take full _ ih => exact .take full ih
    · induction first with
      | done u => exact second
      | take full _ ih =>
        rw [List.append_assoc]
        exact .take full (ih second)

/-- The reading has no fault to find in any bytes. -/
def Tolerant (r : Reading α) : Prop := ∀ bytes fault, ¬r.Refuses bytes fault

theorem Tolerant.bind {r : Reading α} {f : α → Reading β} (first : r.Tolerant)
    (second : ∀ u, (f u).Tolerant) : (r.bind f).Tolerant := by
  intro bytes fault h
  rcases refuses_bind_iff.mp h with refuses | ⟨u, _, back, _, _, refuses⟩
  · exact first bytes fault refuses
  · exact second u back fault refuses

theorem tolerant_done (v : α) : (done v).Tolerant := fun _ _ => refuses_done_iff.mp

theorem tolerant_bytes (n : Nat) : (Reading.bytes n).Tolerant := by
  intro bytes fault h
  obtain ⟨chunk, rest, _, _, later⟩ := refuses_take_iff.mp h
  exact refuses_done_iff.mp later

theorem tolerant_value [FixedWidth α] (narrow : FixedWidth.width α ≤ streamWidth) :
    (value α).Tolerant := by
  intro bytes fault h
  rw [value, if_pos narrow] at h
  obtain ⟨chunk, rest, full, _, later⟩ := refuses_take_iff.mp h
  rw [FixedWidth.extract_of_length chunk full] at later
  exact refuses_done_iff.mp later

theorem tolerant_table {item : Reading α} (each : item.Tolerant) (n : Nat) :
    (table n item).Tolerant := by
  have onto (n : Nat) (found : List α) : (repeatOnto item n found).Tolerant := by
    induction n generalizing found with
    | zero => exact tolerant_done _
    | succ n ih => exact each.bind fun v => ih (v :: found)
  exact onto n []

/-- A value is taken whatever it is, so only what follows may refuse. -/
theorem refuses_value_bind_iff [FixedWidth α] [LawfulFixedWidth α]
    (narrow : FixedWidth.width α ≤ streamWidth) {f : α → Reading β} {bytes : List UInt8}
    {fault : DecodeFault} :
    ((value α).bind f).Refuses bytes fault ↔
      ∃ u back, bytes = FixedWidth.encode u ++ back ∧ (f u).Refuses back fault := by
  simp only [refuses_bind_iff, tolerant_value narrow bytes fault, false_or, reads_value_iff narrow]
  constructor
  · rintro ⟨u, front, back, rfl, rfl, later⟩
    exact ⟨u, back, rfl, later⟩
  · rintro ⟨u, back, rfl, later⟩
    exact ⟨u, _, back, rfl, rfl, later⟩

/-- A reading in front of tolerant ones is the only one that may refuse. -/
theorem refuses_bind_tolerant_iff {r : Reading α} {f : α → Reading β}
    (tolerant : ∀ u, (f u).Tolerant) {bytes : List UInt8} {fault : DecodeFault} :
    (r.bind f).Refuses bytes fault ↔ r.Refuses bytes fault := by
  rw [refuses_bind_iff]
  constructor
  · rintro (first | ⟨u, _, back, _, _, second⟩)
    · exact first
    · exact absurd second (tolerant u back fault)
  · exact .inl

end Reading

namespace Source

/-- What a source finds at its end stays as it is. -/
theorem gatherOnto_ending (s : Source) (n : Nat) (found : List UInt8) :
    (s.gatherOnto n found).2.ending = s.ending := by
  fun_induction gatherOnto s n found with
  | case1 => rfl
  | case2 => rfl
  | case3 => assumption

theorem gather_ending (s : Source) (n : Nat) : (s.gather n).2.ending = s.ending :=
  s.gatherOnto_ending n []

/-- A generous source that has too few bytes gives all of them. -/
theorem Generous.gather_short {s : Source} (generous : s.Generous) {n : Nat}
    (short : s.pending.length < n) :
    (s.gather n).1 = s.pending ∧ (s.gather n).2.pending = [] := by
  have length : (s.gather n).1.length = s.pending.length := by
    rw [Source.gather, generous.length_gatherOnto, Nat.min_eq_right (Nat.le_of_lt short)]
    exact Nat.zero_add _
  exact List.append_inj ((s.gather_append n).trans (List.append_nil _).symm) length

end Source

namespace Reading

variable {α : Type}

theorem drainFrom_of_refuses {r : Reading α} {bytes : List UInt8} {fault : DecodeFault}
    (h : r.Refuses bytes fault) {source : Source} (generous : source.Generous)
    {rest : List UInt8} (pending : source.pending = bytes ++ rest) (consumed : Nat) :
    ∃ after, r.drainFrom consumed source = ⟨.error fault, consumed + bytes.length, after⟩ ∧
      after.pending = rest := by
  induction h generalizing source consumed with
  | refuse fault => exact ⟨source, rfl, pending⟩
  | @take n next chunk later fault full _ ih =>
    rw [List.append_assoc] at pending
    have gathered := generous.gather_eq pending
    rw [full] at gathered
    obtain ⟨after, drained, left⟩ := ih (generous.gather n) gathered.2 (consumed + n)
    refine ⟨after, ?_, left⟩
    simp only [drainFrom, gathered.1, full, ↓reduceIte, drained, List.length_append, Nat.add_assoc]

/-- A source that ends before the reading is done has handed out all of its bytes, and the reading
reports how it ended. -/
theorem drainFrom_of_starves {r : Reading α} {source : Source} (h : r.Starves source.pending)
    (generous : source.Generous) (consumed : Nat) :
    ∃ after, r.drainFrom consumed source =
        ⟨.error source.ending.fault, consumed + source.pending.length, after⟩ ∧
      after.pending = [] := by
  generalize pending : source.pending = bytes at h
  induction h generalizing source consumed with
  | @short n next bytes short =>
    subst pending
    obtain ⟨chunk_eq, left⟩ := generous.gather_short short
    refine ⟨(source.gather n).2, ?_, left⟩
    simp only [drainFrom, chunk_eq, if_neg (Nat.ne_of_lt short), Source.shortage, left,
      List.isEmpty_nil, ↓reduceIte, Source.gather_ending]
  | @take n next chunk later full _ ih =>
    have gathered := generous.gather_eq pending
    rw [full] at gathered
    obtain ⟨after, drained, left⟩ := ih (generous.gather n) (consumed + n) gathered.2
    refine ⟨after, ?_, left⟩
    rw [Source.gather_ending] at drained
    simp only [drainFrom, gathered.1, full, ↓reduceIte, drained, List.length_append, Nat.add_assoc]

end Reading

end ClassFormat
