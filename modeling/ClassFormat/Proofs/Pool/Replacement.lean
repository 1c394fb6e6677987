import ClassFormat.Proofs.Pool.History

/-!
A pool with a constant in the place of another: what stands in front of the place and behind it is
the same for all constants, in the pool and in what it is written as. Main statements:
`entries_put` and `writing_put`.
-/
namespace ClassFormat.Pool

theorem put_self {p : Pool} {index : PoolIndex} {c : Constant} (found : p.get index = .ok c) :
    p.put index c = p := by
  obtain ⟨inside, here⟩ := Array.getElem?_eq_some_iff.mp (get_eq_ok_iff.mp found)
  simp only [put, ← here, Array.setIfInBounds_def, dif_pos inside, Array.set_getElem_self]

theorem put_put (p : Pool) (index : PoolIndex) (c d : Constant) :
    (p.put index c).put index d = p.put index d := by
  simp only [put, Array.setIfInBounds_setIfInBounds]

/-- A replacement succeeds for a constant of the same width, which it gives back. -/
theorem replace_eq_ok_iff {p q : Pool} {index : PoolIndex} {c old : Constant} :
    p.replace index c = (.ok old, q) ↔
      p.get index = .ok old ∧ old.isWide = c.isWide ∧ q = p.put index c := by
  constructor
  · intro done
    rcases p.replace_eq index c with ⟨d, found, same, replaced⟩ | ⟨e, failed⟩
    · cases replaced.symm.trans done
      exact ⟨found, same, rfl⟩
    · cases failed.symm.trans done
  · rintro ⟨found, same, rfl⟩
    rw [replace, found]
    exact if_pos same

/-- The entries around the place of a constant, which do not depend on the constant there. -/
theorem entries_put {p : Pool} {index : PoolIndex} {old : Constant}
    (found : p.get index = .ok old) :
    ∃ front back, ∀ c, (p.put index c).entries = front ++ (index, c) :: back := by
  obtain ⟨inside, _⟩ := Array.getElem?_eq_some_iff.mp (get_eq_ok_iff.mp found)
  have inside' : index.toNat < p.slots.toList.length := inside
  have slots (c : Constant) : (p.put index c).slots.toList =
      p.slots.toList.take index.toNat ++ .entry c :: p.slots.toList.drop (index.toNat + 1) := by
    rw [put, Array.toList_setIfInBounds, List.set_eq_take_append_cons_drop, if_pos inside']
  have position : 0 + (p.slots.toList.take index.toNat).length = index.toNat := by
    rw [Nat.zero_add, List.length_take_of_le (Nat.le_of_lt inside')]
  obtain ⟨f, of_slots, of_entry⟩ : ∃ f : Slot × Nat → Option (PoolIndex × Constant),
      (∀ q : Pool, q.entries = q.slots.toList.zipIdx.filterMap f) ∧
        ∀ c i, f (.entry c, i) = some (UInt16.ofNat i, c) :=
    ⟨_, fun _ => rfl, fun _ _ => rfl⟩
  refine ⟨(p.slots.toList.take index.toNat).zipIdx.filterMap f,
    ((p.slots.toList.drop (index.toNat + 1)).zipIdx (index.toNat + 1)).filterMap f, ?_⟩
  intro c
  rw [of_slots, slots, List.zipIdx_append, List.filterMap_append, position, List.zipIdx_cons,
    List.filterMap_cons_some (of_entry c index.toNat), UInt16.ofNat_toNat]

/-- What the pool is written as around the place of a constant. -/
theorem writing_put {p : Pool} {index : PoolIndex} {old : Constant}
    (found : p.get index = .ok old) :
    ∃ front back, ∀ c, (p.put index c).writing = front ++ (c.writing ++ back) := by
  obtain ⟨front, back, entries⟩ := entries_put found
  refine ⟨.value p.count ++ .all (front.map (·.2.writing)), .all (back.map (·.2.writing)), ?_⟩
  intro c
  have count : (p.put index c).count = p.count := by rw [Pool.count, size_put, ← Pool.count]
  rw [writing, count, entries, List.map_append, List.map_cons, Writing.all_append, Writing.all_cons,
    Writing.append_assoc]

end ClassFormat.Pool
