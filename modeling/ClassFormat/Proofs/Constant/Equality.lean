import ClassFormat.Proofs.Constant.Codec

/-!
Equality of constants by value, set against what they are written as. Main statements:
`valueEq_iff`, by which only a NaN and the two zeros of a type are told apart otherwise than by
their parts, and `toBytes_writing_ne_iff`.
-/
namespace ClassFormat

/-- Numbers that are the same or both zero, for numbers of which no zero is a NaN. -/
theorem same_or_zeros_iff {same zero zero' : Prop} {nan nan' : Bool} (agree : same → nan = nan')
    (number : zero → nan = false) (number' : zero' → nan' = false) :
    ((nan = false ∧ nan' = false) ∧ (same ∨ zero ∧ zero')) ↔
      (same ∧ nan' = false) ∨ (zero ∧ zero' ∧ ¬same) := by
  constructor
  · rintro ⟨⟨_, real⟩, equal | ⟨none, none'⟩⟩
    · exact .inl ⟨equal, real⟩
    · by_cases equal : same
      · exact .inl ⟨equal, real⟩
      · exact .inr ⟨none, none', equal⟩
  · rintro (⟨equal, real⟩ | ⟨none, none', _⟩)
    · exact ⟨⟨(agree equal).trans real, real⟩, .inl equal⟩
    · exact ⟨⟨number none, number' none'⟩, .inr ⟨none, none'⟩⟩

namespace Binary32

theorem isNaN_of_magnitude_eq_zero {x : Binary32} (zero : x.magnitude = 0) : x.isNaN = false := by
  rw [isNaN, zero]
  rfl

theorem ieeeEq_iff {x y : Binary32} :
    x.ieeeEq y = true ↔
      (x = y ∧ y.isNaN = false) ∨ (x.magnitude = 0 ∧ y.magnitude = 0 ∧ ¬x = y) := by
  have same : x.bits = y.bits ↔ x = y := ⟨congrArg mk, congrArg bits⟩
  simp only [ieeeEq, Bool.and_eq_true, Bool.not_eq_true', Bool.or_eq_true, beq_iff_eq, same]
  exact same_or_zeros_iff (congrArg isNaN) isNaN_of_magnitude_eq_zero isNaN_of_magnitude_eq_zero

end Binary32

namespace Binary64

theorem isNaN_of_magnitude_eq_zero {x : Binary64} (zero : x.magnitude = 0) : x.isNaN = false := by
  rw [isNaN, zero]
  rfl

theorem ieeeEq_iff {x y : Binary64} :
    x.ieeeEq y = true ↔
      (x = y ∧ y.isNaN = false) ∨ (x.magnitude = 0 ∧ y.magnitude = 0 ∧ ¬x = y) := by
  have same : x.bits = y.bits ↔ x = y := ⟨congrArg mk, congrArg bits⟩
  simp only [ieeeEq, Bool.and_eq_true, Bool.not_eq_true', Bool.or_eq_true, beq_iff_eq, same]
  exact same_or_zeros_iff (congrArg isNaN) isNaN_of_magnitude_eq_zero isNaN_of_magnitude_eq_zero

end Binary64

namespace Constant

def IsNaN : Constant → Prop
  | float x => x.isNaN = true
  | double x => x.isNaN = true
  | _ => False

/-- Two zeros of one type with different signs: of their bits only the sign differs. -/
def OppositeZeros : Constant → Constant → Prop
  | float x, float y => x.magnitude = 0 ∧ y.magnitude = 0 ∧ ¬x = y
  | double x, double y => x.magnitude = 0 ∧ y.magnitude = 0 ∧ ¬x = y
  | _, _ => False

theorem valueEq_iff {d c : Constant} :
    d.valueEq c = true ↔ (d = c ∧ ¬c.IsNaN) ∨ d.OppositeZeros c := by
  unfold valueEq
  split
  · rename_i x y
    simp [Binary32.ieeeEq_iff, IsNaN, OppositeZeros]
  · rename_i x y
    simp [Binary64.ieeeEq_iff, IsNaN, OppositeZeros]
  · rename_i noFloats noDoubles
    have apart : ¬d.OppositeZeros c := by
      unfold OppositeZeros
      split
      · exact absurd rfl (noFloats _ _ rfl)
      · exact absurd rfl (noDoubles _ _ rfl)
      · exact id
    have number : d = c → ¬c.IsNaN := by
      rintro rfl
      cases d with
      | float x => exact absurd rfl (noFloats x x rfl)
      | double x => exact absurd rfl (noDoubles x x rfl)
      | _ => exact id
    rw [beq_iff_eq]
    constructor
    · intro same
      exact .inl ⟨same, number same⟩
    · rintro (⟨same, _⟩ | opposite)
      · exact same
      · exact absurd opposite apart

theorem valueEq_self {c : Constant} (number : ¬c.IsNaN) : c.valueEq c = true :=
  valueEq_iff.mpr (.inl ⟨rfl, number⟩)

theorem OppositeZeros.kind_eq {d c : Constant} (h : d.OppositeZeros c) : d.kind = c.kind := by
  unfold OppositeZeros at h
  split at h
  · rfl
  · rfl
  · exact h.elim

theorem toBytes_tagged_ne {α : Type} [FixedWidth α] [LawfulFixedWidth α]
    (narrow : FixedWidth.width α ≤ Reading.streamWidth) (tag : UInt8) {x y : α} (differ : ¬x = y) :
    (Writing.value tag ++ Writing.value x).toBytes ≠
      (Writing.value tag ++ Writing.value y).toBytes := by
  have form (v : α) : (Writing.value tag ++ Writing.value v).toBytes =
      .ok (FixedWidth.encode tag ++ FixedWidth.encode v) :=
    Writing.toBytes_eq_ok_iff.mpr ((Writing.emits_value_append_iff (by decide)).mpr
      ⟨_, rfl, (Writing.emits_value_iff narrow).mpr rfl⟩)
  rw [form, form]
  intro same
  exact differ (FixedWidth.encode_inj.mp (List.append_cancel_left (Except.ok.inj same)))

theorem OppositeZeros.toBytes_writing_ne {d c : Constant} (h : d.OppositeZeros c) :
    d.writing.toBytes ≠ c.writing.toBytes := by
  unfold OppositeZeros at h
  split at h
  · exact toBytes_tagged_ne (by decide) _ h.2.2
  · exact toBytes_tagged_ne (by decide) _ h.2.2
  · exact h.elim

/-- Among constants of equal value only the two zeros are written differently. -/
theorem toBytes_writing_ne_iff {d c : Constant} (equal : d.valueEq c = true) :
    d.writing.toBytes ≠ c.writing.toBytes ↔ d.OppositeZeros c := by
  constructor
  · intro differ
    rcases valueEq_iff.mp equal with ⟨rfl, _⟩ | opposite
    · exact absurd rfl differ
    · exact opposite
  · exact OppositeZeros.toBytes_writing_ne

end Constant

end ClassFormat
