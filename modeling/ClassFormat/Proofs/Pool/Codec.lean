import ClassFormat.Pool.Codec
import ClassFormat.Proofs.Constant.Codec
import ClassFormat.Proofs.Pool.WellFormed

/-!
A pool is read exactly from the bytes that it is written as, and every pool that is read is
well-formed. Main statement: `reads_iff_emits`.
-/
namespace ClassFormat.Pool

open Reading (reads_done_iff reads_refuse_iff reads_bind_iff reads_value_bind_iff)
open Writing (emits_append_iff emits_value_append_iff)

/-- Every string of the pool is kept as bytes only where it is no text. -/
def Faithful (p : Pool) : Prop := ∀ c ∈ p.constants, c.Faithful

theorem emits_constants_cons_iff {c : Constant} {cs : List Constant} {bytes : List UInt8} :
    (Writing.all ((c :: cs).map Constant.writing)).Emits bytes ↔
      ∃ front back, bytes = front ++ back ∧ c.writing.Emits front ∧
        (Writing.all (cs.map Constant.writing)).Emits back := by
  rw [List.map_cons, Writing.all_cons, emits_append_iff]

/-- Constants are read back behind those of `found` as long as there are slots left for them. The
induction is on the slots left, of which a wide constant takes two at once. -/
theorem reads_constantsOnto_iff {left : Nat} {found cs : List Constant} {bytes : List UInt8} :
    (constantsOnto left found).Reads bytes cs ↔
      ∃ later, cs = found.reverse ++ later ∧ span later = left ∧ (∀ c ∈ later, c.Faithful) ∧
        (Writing.all (later.map Constant.writing)).Emits bytes := by
  induction left using Nat.strongRecOn generalizing found bytes with
  | ind left ih =>
    cases left with
    | zero =>
      rw [constantsOnto, reads_done_iff]
      constructor
      · rintro ⟨rfl, rfl⟩
        exact ⟨[], by simp, rfl, by simp, by simp⟩
      · rintro ⟨later, rfl, full, _, emits⟩
        cases later with
        | nil => exact ⟨by simpa using emits, by simp⟩
        | cons c later =>
          have positive := c.width_le
          rw [span_cons] at full
          omega
    | succ n =>
      rw [constantsOnto, reads_bind_iff]
      constructor
      · rintro ⟨c, front, back, rfl, first, second⟩
        obtain ⟨emits, faithful⟩ := Constant.reads_iff_emits.mp first
        split at second
        · rename_i wide
          cases n with
          | zero => exact absurd second reads_refuse_iff.mp
          | succ m =>
            obtain ⟨later, rfl, full, faithful', emits'⟩ := (ih m (by omega)).mp second
            refine ⟨c :: later, by simp, ?_, List.forall_mem_cons.mpr ⟨faithful, faithful'⟩, ?_⟩
            · rw [span_cons, Constant.width, if_pos wide, full]
              omega
            · exact emits_constants_cons_iff.mpr ⟨front, back, rfl, emits, emits'⟩
        · rename_i narrow
          obtain ⟨later, rfl, full, faithful', emits'⟩ := (ih n (by omega)).mp second
          refine ⟨c :: later, by simp, ?_, List.forall_mem_cons.mpr ⟨faithful, faithful'⟩, ?_⟩
          · rw [span_cons, Constant.width, if_neg narrow, full]
            omega
          · exact emits_constants_cons_iff.mpr ⟨front, back, rfl, emits, emits'⟩
      · rintro ⟨later, rfl, full, faithful, emits⟩
        cases later with
        | nil => cases full
        | cons c later =>
          obtain ⟨front, back, rfl, first, second⟩ := emits_constants_cons_iff.mp emits
          obtain ⟨faithful, faithful'⟩ := List.forall_mem_cons.mp faithful
          refine ⟨c, front, back, rfl, Constant.reads_iff_emits.mpr ⟨first, faithful⟩, ?_⟩
          rw [span_cons, Constant.width] at full
          split at full
          · rename_i wide
            rw [if_pos wide]
            cases n with
            | zero => omega
            | succ m =>
              exact (ih m (by omega)).mpr ⟨later, by simp, by omega, faithful', second⟩
          · rename_i narrow
            rw [if_neg narrow]
            exact (ih n (by omega)).mpr ⟨later, by simp, by omega, faithful', second⟩

theorem writing_eq (p : Pool) :
    p.writing = .value p.count ++ .all (p.constants.map Constant.writing) := by
  rw [writing, constants, List.map_map]
  rfl

theorem reads_iff {count : UInt16} {p : Pool} {bytes : List UInt8} :
    (Pool.reading count).Reads bytes p ↔
      p.WellFormed ∧ p.count = count ∧ p.Faithful ∧
        (Writing.all (p.constants.map Constant.writing)).Emits bytes := by
  constructor
  · intro h
    rw [Pool.reading] at h
    split at h
    · exact absurd h reads_refuse_iff.mp
    · rename_i nonzero
      obtain ⟨cs, front, back, rfl, first, second⟩ := reads_bind_iff.mp h
      obtain ⟨rfl, rfl⟩ := reads_done_iff.mp second
      obtain ⟨_, rfl, full, faithful, emits⟩ := reads_constantsOnto_iff.mp first
      have positive : count.toNat ≠ 0 := fun zero => nonzero (UInt16.toNat_inj.mp zero)
      have bound := count.toNat_lt
      have wellFormed : (ofConstants cs).WellFormed :=
        wellFormed_iff.mpr ⟨cs, rfl, by rw [capacity]; omega⟩
      rw [List.append_nil]
      refine ⟨wellFormed, UInt16.toNat_inj.mp ?_, ?_, ?_⟩
      · rw [wellFormed.count_eq_span, constants_ofConstants]
        omega
      · rw [Faithful, constants_ofConstants]
        exact faithful
      · rw [constants_ofConstants]
        exact emits
  · rintro ⟨wellFormed, rfl, faithful, emits⟩
    have size := wellFormed.count_eq_span
    have nonzero : p.count ≠ 0 := by
      intro zero
      rw [zero] at size
      have : (0 : UInt16).toNat = 0 := rfl
      omega
    rw [Pool.reading, if_neg nonzero, reads_bind_iff]
    refine ⟨p.constants, bytes, [], by simp, ?_, ?_⟩
    · exact reads_constantsOnto_iff.mpr ⟨p.constants, by simp, by omega, faithful, emits⟩
    · rw [wellFormed.ofConstants_constants]
      exact .done p

theorem reads_iff_emits {p : Pool} {bytes : List UInt8} :
    ((Reading.value UInt16).bind Pool.reading).Reads bytes p ↔
      p.writing.Emits bytes ∧ p.WellFormed ∧ p.Faithful := by
  rw [reads_value_bind_iff (by decide), writing_eq, emits_value_append_iff (by decide)]
  simp only [reads_iff]
  constructor
  · rintro ⟨count, back, rfl, wellFormed, rfl, faithful, emits⟩
    exact ⟨⟨back, rfl, emits⟩, wellFormed, faithful⟩
  · rintro ⟨⟨back, rfl, emits⟩, wellFormed, faithful⟩
    exact ⟨p.count, back, rfl, wellFormed, rfl, faithful, emits⟩

end ClassFormat.Pool
