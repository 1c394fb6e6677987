import ClassFormat.Proofs.Pool.Mapped
import ClassFormat.Proofs.Pool.Runs

/-!
Strings as they are read back once they were written. A string that is kept as bytes though they are
the form of a text comes back as this text; all else stays as it is, the layout of a pool and what
it is written as among it.
-/
namespace ClassFormat

namespace JavaString

/-- The bytes of the string are the form of the text. -/
def Spells (s : JavaString) (value : String) : Prop := s.toBytes = ModifiedUtf8.encode value.toList

def normalized (s : JavaString) : JavaString := ofBytes s.toBytes

theorem toBytes_normalized (s : JavaString) : s.normalized.toBytes = s.toBytes :=
  (ofBytes_eq_iff.mp rfl).1.symm

theorem faithful_normalized (s : JavaString) : s.normalized.Faithful :=
  (ofBytes_eq_iff.mp rfl).2

theorem normalized_eq_text_iff {s : JavaString} {value : String} :
    s.normalized = .text value ↔ s.Spells value := by
  rw [normalized, ofBytes_eq_iff]
  exact and_iff_left trivial

theorem Faithful.eq_text_of_spells {s : JavaString} (faithful : s.Faithful) {value : String}
    (spells : s.Spells value) : s = .text value := by
  have same : s.normalized = s := ofBytes_eq_iff.mpr ⟨rfl, faithful⟩
  rw [← same, normalized_eq_text_iff]
  exact spells

end JavaString

namespace Constant

def normalized : Constant → Constant
  | utf8 value => utf8 value.normalized
  | c => c

@[simp] theorem kind_normalized (c : Constant) : c.normalized.kind = c.kind := by
  cases c <;> rfl

@[simp] theorem isWide_normalized (c : Constant) : c.normalized.isWide = c.isWide := by
  rw [isWide, kind_normalized, isWide]

theorem writing_normalized (c : Constant) : c.normalized.writing = c.writing := by
  cases c with
  | utf8 value => rw [normalized, writing, writing, partsWriting, partsWriting,
      JavaString.toBytes_normalized, tag, tag, kind, kind]
  | _ => rfl

theorem faithful_normalized (c : Constant) : c.normalized.Faithful := by
  cases c with
  | utf8 value => exact value.faithful_normalized
  | _ => trivial

theorem normalized_eq_utf8_iff {c : Constant} {s : JavaString} :
    c.normalized = .utf8 s ↔ ∃ t, c = .utf8 t ∧ t.normalized = s := by
  cases c <;> simp [normalized]

theorem normalized_of_ne {c : Constant} (other : c.kind ≠ .utf8) : c.normalized = c := by
  cases c with
  | utf8 value => exact absurd rfl other
  | _ => rfl

end Constant

namespace Pool

variable {p : Pool} {index : PoolIndex}

def normalized (p : Pool) : Pool := p.mapped Constant.normalized

theorem size_normalized (p : Pool) : p.normalized.slots.size = p.slots.size :=
  size_mapped Constant.normalized p

theorem get_normalized_iff {d : Constant} :
    p.normalized.get index = .ok d ↔ ∃ c, p.get index = .ok c ∧ c.normalized = d :=
  get_mapped_iff

theorem get_normalized_utf8_iff {s : JavaString} :
    p.normalized.get index = .ok (.utf8 s) ↔
      ∃ t, p.get index = .ok (.utf8 t) ∧ t.normalized = s := by
  simp only [get_normalized_iff, Constant.normalized_eq_utf8_iff]
  constructor
  · rintro ⟨_, found, t, rfl, same⟩
    exact ⟨t, found, same⟩
  · rintro ⟨t, found, same⟩
    exact ⟨_, found, t, rfl, same⟩

/-- Constants that hold no string are found as they were. -/
theorem get_normalized_of_ne {d : Constant} (other : d.kind ≠ .utf8) :
    p.normalized.get index = .ok d ↔ p.get index = .ok d := by
  rw [get_normalized_iff]
  constructor
  · rintro ⟨c, found, rfl⟩
    rw [Constant.kind_normalized] at other
    rw [Constant.normalized_of_ne other]
    exact found
  · intro found
    exact ⟨d, found, Constant.normalized_of_ne other⟩

theorem WellFormed.normalized (h : p.WellFormed) : p.normalized.WellFormed := by
  apply h.of_same_shape p.size_normalized
  · intro j
    exact getElem?_mapped_eq_gap_iff
  · intro j
    constructor
    · rintro ⟨_, found, wide⟩
      obtain ⟨c, found', rfl⟩ := getElem?_mapped_eq_entry_iff.mp found
      rw [Constant.isWide_normalized] at wide
      exact ⟨c, found', wide⟩
    · rintro ⟨c, found, wide⟩
      rw [← Constant.isWide_normalized] at wide
      exact ⟨_, getElem?_mapped_eq_entry_iff.mpr ⟨c, found, rfl⟩, wide⟩

theorem constants_normalized (p : Pool) :
    p.normalized.constants = p.constants.map Constant.normalized :=
  constants_mapped Constant.normalized p

theorem faithful_normalized (p : Pool) : p.normalized.Faithful := by
  intro d member
  rw [constants_normalized] at member
  obtain ⟨c, _, rfl⟩ := List.mem_map.mp member
  exact c.faithful_normalized

theorem writing_normalized (p : Pool) : p.normalized.writing = p.writing := by
  have same : Constant.writing ∘ Constant.normalized = Constant.writing :=
    funext Constant.writing_normalized
  rw [writing_eq, writing_eq, constants_normalized, List.map_map, same, count, size_normalized,
    ← count]

end Pool

end ClassFormat
