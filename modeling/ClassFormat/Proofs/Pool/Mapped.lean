import ClassFormat.Proofs.Pool.WellFormed

/-!
Pools with each constant replaced by another, slot by slot.
-/
namespace ClassFormat

def Slot.mapped (f : Constant → Constant) : Slot → Slot
  | entry c => entry (f c)
  | gap => gap

namespace Pool

variable {f : Constant → Constant} {p : Pool}

def mapped (f : Constant → Constant) (p : Pool) : Pool := ⟨p.slots.map (Slot.mapped f)⟩

theorem size_mapped (f : Constant → Constant) (p : Pool) :
    (p.mapped f).slots.size = p.slots.size :=
  Array.size_map

theorem getElem?_mapped_eq_gap_iff {i : Nat} :
    (p.mapped f).slots[i]? = some .gap ↔ p.slots[i]? = some .gap := by
  rw [mapped, Array.getElem?_map, Option.map_eq_some_iff]
  constructor
  · rintro ⟨slot, found, same⟩
    cases slot with
    | entry c => cases same
    | gap => exact found
  · intro found
    exact ⟨.gap, found, rfl⟩

theorem getElem?_mapped_eq_entry_iff {i : Nat} {d : Constant} :
    (p.mapped f).slots[i]? = some (.entry d) ↔ ∃ c, p.slots[i]? = some (.entry c) ∧ f c = d := by
  rw [mapped, Array.getElem?_map, Option.map_eq_some_iff]
  constructor
  · rintro ⟨slot, found, same⟩
    cases slot with
    | entry c => exact ⟨c, found, Slot.entry.inj same⟩
    | gap => cases same
  · rintro ⟨c, found, rfl⟩
    exact ⟨.entry c, found, rfl⟩

theorem get_mapped_iff {index : PoolIndex} {d : Constant} :
    (p.mapped f).get index = .ok d ↔ ∃ c, p.get index = .ok c ∧ f c = d := by
  simp only [get_eq_ok_iff, getElem?_mapped_eq_entry_iff]

theorem entries_mapped (f : Constant → Constant) (p : Pool) :
    (p.mapped f).entries = p.entries.map fun e => (e.1, f e.2) := by
  rw [entries, entries, mapped, Array.toList_map, List.zipIdx_map, List.filterMap_map,
    List.map_filterMap]
  congr 1
  funext e
  obtain ⟨slot, i⟩ := e
  cases slot with
  | entry c => rfl
  | gap => rfl

theorem constants_mapped (f : Constant → Constant) (p : Pool) :
    (p.mapped f).constants = p.constants.map f := by
  rw [constants, constants, entries_mapped, List.map_map, List.map_map]
  rfl

theorem mapped_ofConstants (wide : ∀ c, (f c).isWide = c.isWide) (cs : List Constant) :
    (ofConstants cs).mapped f = ofConstants (cs.map f) := by
  have each (c : Constant) : (f c).slots = c.slots.map (Slot.mapped f) := by
    rw [Constant.slots, Constant.slots, wide]
    split
    · rfl
    · rfl
  have same : ((ofConstants cs).mapped f).slots.toList = (ofConstants (cs.map f)).slots.toList := by
    rw [mapped, Array.toList_map, toList_ofConstants, toList_ofConstants, List.map_cons,
      List.map_flatMap, List.flatMap_map]
    simp only [each]
    rfl
  exact congrArg mk (Array.toList_inj.mp same)

end Pool

end ClassFormat
