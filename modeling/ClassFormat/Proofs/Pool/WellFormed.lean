import ClassFormat.Pool.Basic

/-!
How the slots of a pool lie: a gap in front, then each constant with a gap behind it if it is wide.
Main statements: `wellFormed_iff`, by which the constants and their order determine a well-formed
pool, and `mem_entries_iff`, by which its entries are what can be looked up.
-/
namespace ClassFormat

theorem Constant.width_le (c : Constant) : 1 ≤ c.width ∧ c.width ≤ 2 := by
  rw [width]
  split
  · decide
  · decide

theorem Constant.isWide_of_width {c : Constant} (two : 2 ≤ c.width) : c.isWide = true := by
  rw [width] at two
  split at two
  · assumption
  · omega

def Constant.slots (c : Constant) : List Slot := if c.isWide then [.entry c, .gap] else [.entry c]

@[simp] theorem Constant.length_slots (c : Constant) : c.slots.length = c.width := by
  rw [slots, width]
  split
  · rfl
  · rfl

namespace Pool

structure WellFormed (p : Pool) : Prop where
  size_le : p.slots.size ≤ capacity
  first_gap : p.slots[0]? = some .gap
  /-- Behind slot 0 the gaps are the second slots of wide constants. -/
  gap_iff : ∀ i, i + 1 < p.slots.size →
    (p.slots[i + 1]? = some .gap ↔ ∃ c, p.slots[i]? = some (.entry c) ∧ c.isWide = true)
  wide_not_last : ∀ i c, p.slots[i]? = some (.entry c) → c.isWide = true → i + 1 < p.slots.size

def span : List Constant → Nat
  | [] => 0
  | c :: cs => c.width + span cs

@[simp] theorem span_nil : span [] = 0 := rfl

@[simp] theorem span_cons (c : Constant) (cs : List Constant) :
    span (c :: cs) = c.width + span cs := rfl

@[simp] theorem span_append (cs ds : List Constant) : span (cs ++ ds) = span cs + span ds := by
  induction cs with
  | nil => simp
  | cons c cs ih => simp [ih, Nat.add_assoc]

theorem toList_append (p : Pool) (c : Constant) :
    (p.append c).slots.toList = p.slots.toList ++ c.slots := by
  rw [append, Constant.slots]
  split
  · simp
  · simp

theorem toList_foldl_append (p : Pool) (cs : List Constant) :
    (cs.foldl append p).slots.toList = p.slots.toList ++ cs.flatMap Constant.slots := by
  induction cs generalizing p with
  | nil => simp
  | cons c cs ih =>
    rw [List.foldl_cons, ih, toList_append, List.flatMap_cons, List.append_assoc]

theorem toList_ofConstants (cs : List Constant) :
    (ofConstants cs).slots.toList = .gap :: cs.flatMap Constant.slots :=
  toList_foldl_append empty cs

theorem size_append (p : Pool) (c : Constant) :
    (p.append c).slots.size = p.slots.size + c.width := by
  rw [← Array.length_toList, toList_append, List.length_append, Array.length_toList,
    Constant.length_slots]

theorem size_foldl_append (p : Pool) (cs : List Constant) :
    (cs.foldl append p).slots.size = p.slots.size + span cs := by
  induction cs generalizing p with
  | nil => rfl
  | cons c cs ih => rw [List.foldl_cons, ih, size_append, span_cons, Nat.add_assoc]

theorem size_ofConstants (cs : List Constant) : (ofConstants cs).slots.size = 1 + span cs :=
  size_foldl_append empty cs

theorem wellFormed_empty : empty.WellFormed where
  size_le := by decide
  first_gap := rfl
  gap_iff i inside := by simp [empty] at inside
  wide_not_last i c found := by
    cases i with
    | zero => cases found
    | succ i => cases found

theorem getElem?_append_of_lt {p : Pool} {c : Constant} {i : Nat} (old : i < p.slots.size) :
    (p.append c).slots[i]? = p.slots[i]? := by
  rw [← Array.getElem?_toList, toList_append, List.getElem?_append_left (by simpa using old),
    Array.getElem?_toList]

theorem getElem?_append_size (p : Pool) (c : Constant) :
    (p.append c).slots[p.slots.size]? = some (.entry c) := by
  rw [← Array.getElem?_toList, toList_append, List.getElem?_append_right (by simp),
    Array.length_toList, Nat.sub_self, Constant.slots]
  split
  · rfl
  · rfl

theorem getElem?_append_succ (p : Pool) {c : Constant} (wide : c.isWide = true) :
    (p.append c).slots[p.slots.size + 1]? = some .gap := by
  rw [← Array.getElem?_toList, toList_append, List.getElem?_append_right (by simp),
    Array.length_toList, Nat.add_sub_cancel_left, Constant.slots, if_pos wide]
  rfl

theorem WellFormed.size_pos {p : Pool} (h : p.WellFormed) : 0 < p.slots.size := by
  obtain ⟨inside, _⟩ := Array.getElem?_eq_some_iff.mp h.first_gap
  exact inside

theorem WellFormed.append {p : Pool} (h : p.WellFormed) {c : Constant}
    (room : p.slots.size + c.width ≤ capacity) : (p.append c).WellFormed where
  size_le := by rw [size_append]; exact room
  first_gap := by rw [getElem?_append_of_lt h.size_pos, h.first_gap]
  gap_iff i inside := by
    rcases Nat.lt_trichotomy (i + 1) p.slots.size with old | border | new
    · rw [getElem?_append_of_lt old, getElem?_append_of_lt (Nat.lt_of_succ_lt old)]
      exact h.gap_iff i old
    · -- The last old slot holds nothing wide, and the first new slot is no gap.
      have last : i < p.slots.size := by omega
      rw [border, getElem?_append_size, getElem?_append_of_lt last]
      constructor
      · intro gap
        cases gap
      · rintro ⟨d, found, wide⟩
        have := h.wide_not_last i d found wide
        omega
    · have narrow := c.width_le
      rw [size_append] at inside
      have second : i = p.slots.size := by omega
      have wide : c.isWide = true := Constant.isWide_of_width (by omega)
      subst second
      rw [getElem?_append_succ p wide, getElem?_append_size]
      exact ⟨fun _ => ⟨c, rfl, wide⟩, fun _ => rfl⟩
  wide_not_last i d found wide := by
    rw [size_append]
    have positive := c.width_le
    rcases Nat.lt_trichotomy i p.slots.size with old | border | new
    · omega
    · subst border
      rw [getElem?_append_size] at found
      cases found
      rw [Constant.width, if_pos wide]
      omega
    · -- Only the gap of a wide constant lies further behind.
      obtain ⟨inside, _⟩ := Array.getElem?_eq_some_iff.mp found
      rw [size_append] at inside
      have bound := c.width_le
      have second : i = p.slots.size + 1 := by omega
      have wide' : c.isWide = true := Constant.isWide_of_width (by omega)
      rw [second, getElem?_append_succ p wide'] at found
      cases found

theorem WellFormed.foldl_append {p : Pool} (h : p.WellFormed) {cs : List Constant}
    (room : p.slots.size + span cs ≤ capacity) : (cs.foldl Pool.append p).WellFormed := by
  induction cs generalizing p with
  | nil => exact h
  | cons c cs ih =>
    rw [span_cons] at room
    have first : (p.append c).WellFormed := h.append (by omega)
    exact ih first (by rw [size_append]; omega)

/-- Slots behind the first: no gap at the start, and gaps exactly behind wide constants. -/
structure Tiled (slots : List Slot) : Prop where
  starts : slots[0]? ≠ some .gap
  gap_of_wide : ∀ i c, slots[i]? = some (.entry c) → c.isWide = true → slots[i + 1]? = some .gap
  wide_of_gap : ∀ i, slots[i + 1]? = some .gap → ∃ c, slots[i]? = some (.entry c) ∧ c.isWide = true

/-- Such slots are those of constants in a row. A wide constant takes its gap along. -/
theorem Tiled.exists_constants {slots : List Slot} (h : Tiled slots) :
    ∃ cs : List Constant, slots = cs.flatMap Constant.slots := by
  match slots with
  | [] => exact ⟨[], rfl⟩
  | .gap :: rest => exact absurd rfl h.starts
  | .entry c :: rest =>
    cases wide : c.isWide with
    | false =>
      have tail : Tiled rest := {
        starts := by
          intro gap
          obtain ⟨d, found, wide'⟩ := h.wide_of_gap 0 gap
          cases found
          rw [wide] at wide'
          cases wide'
        gap_of_wide := fun i => h.gap_of_wide (i + 1)
        wide_of_gap := fun i => h.wide_of_gap (i + 1) }
      obtain ⟨cs, rfl⟩ := tail.exists_constants
      exact ⟨c :: cs, by rw [List.flatMap_cons, Constant.slots, wide]; rfl⟩
    | true =>
      have second : rest[0]? = some .gap := h.gap_of_wide 0 c rfl wide
      match rest with
      | .gap :: rest =>
        have tail : Tiled rest := {
          starts := by
            intro gap
            obtain ⟨d, found, _⟩ := h.wide_of_gap 1 gap
            cases found
          gap_of_wide := fun i => h.gap_of_wide (i + 2)
          wide_of_gap := fun i => h.wide_of_gap (i + 2) }
        obtain ⟨cs, rfl⟩ := tail.exists_constants
        exact ⟨c :: cs, by rw [List.flatMap_cons, Constant.slots, wide]; rfl⟩

theorem WellFormed.exists_constants {p : Pool} (h : p.WellFormed) :
    ∃ cs, p = ofConstants cs := by
  obtain ⟨⟨slots⟩⟩ := p
  have front := h.first_gap
  cases slots with
  | nil => cases front
  | cons first rest =>
    have gap : first = .gap := by simpa using front
    have at_succ : ∀ i, (⟨first :: rest⟩ : Array Slot)[i + 1]? = rest[i]? := fun i => by simp
    have tail : Tiled rest := {
      starts := by
        intro next
        have inside : 0 + 1 < (first :: rest).length := by
          simpa using (List.getElem?_eq_some_iff.mp next).1
        obtain ⟨c, found, _⟩ := (h.gap_iff 0 inside).mp (by simpa using next)
        rw [h.first_gap] at found
        cases found
      gap_of_wide := by
        intro i c found wide
        have inside := h.wide_not_last (i + 1) c (by rw [at_succ, found]) wide
        rw [← at_succ]
        exact (h.gap_iff (i + 1) inside).mpr ⟨c, by rw [at_succ, found], wide⟩
      wide_of_gap := by
        intro i next
        have inside := (List.getElem?_eq_some_iff.mp next).1
        simpa [at_succ] using (h.gap_iff (i + 1) (by simpa using inside)).mp (by simpa using next) }
    obtain ⟨cs, rest_eq⟩ := tail.exists_constants
    refine ⟨cs, ?_⟩
    have same := toList_ofConstants cs
    rw [← rest_eq, ← gap] at same
    exact congrArg Pool.mk (Array.toList_inj.mp same.symm)

/-- The well-formed pools are those that hold some constants in order, as far as their slots can be
numbered. -/
theorem wellFormed_iff {p : Pool} :
    p.WellFormed ↔ ∃ cs, p = ofConstants cs ∧ 1 + span cs ≤ capacity := by
  constructor
  · intro h
    obtain ⟨cs, rfl⟩ := h.exists_constants
    exact ⟨cs, rfl, size_ofConstants cs ▸ h.size_le⟩
  · rintro ⟨cs, rfl, room⟩
    exact wellFormed_empty.foldl_append room

def constants (p : Pool) : List Constant := p.entries.map (·.2)

theorem constants_eq (p : Pool) : p.constants = p.slots.toList.filterMap Slot.constant? := by
  rw [constants, entries, List.map_filterMap]
  conv => rhs; rw [← List.zipIdx_map_fst 0 p.slots.toList, List.filterMap_map]
  congr 1
  funext ⟨slot, i⟩
  cases slot with
  | entry c => rfl
  | gap => rfl

theorem filterMap_slots (cs : List Constant) :
    (cs.flatMap Constant.slots).filterMap Slot.constant? = cs := by
  induction cs with
  | nil => rfl
  | cons c cs ih =>
    rw [List.flatMap_cons, List.filterMap_append, ih, Constant.slots]
    split
    · rfl
    · rfl

@[simp] theorem constants_ofConstants (cs : List Constant) : (ofConstants cs).constants = cs := by
  rw [constants_eq, toList_ofConstants]
  exact filterMap_slots cs

theorem WellFormed.ofConstants_constants {p : Pool} (h : p.WellFormed) :
    ofConstants p.constants = p := by
  obtain ⟨cs, rfl⟩ := h.exists_constants
  rw [constants_ofConstants]

theorem get_eq_ok_iff {p : Pool} {index : PoolIndex} {c : Constant} :
    p.get index = .ok c ↔ p.slots[index.toNat]? = some (.entry c) := by
  rw [get]
  split
  · rename_i d found
    rw [found, Except.ok.injEq, Option.some.injEq, Slot.entry.injEq]
  · rename_i missing
    constructor
    · intro impossible
      cases impossible
    · intro found
      exact absurd found (missing c)

/-- The constants with the numbers of their slots, which no word of 16 bits has to hold. -/
def placed (p : Pool) : List (Nat × Constant) :=
  p.slots.toList.zipIdx.filterMap fun (slot, i) => slot.constant?.map fun constant => (i, constant)

theorem mem_placed_iff {p : Pool} {i : Nat} {c : Constant} :
    (i, c) ∈ p.placed ↔ p.slots[i]? = some (.entry c) := by
  rw [placed, List.mem_filterMap]
  constructor
  · rintro ⟨⟨slot, j⟩, member, found⟩
    cases slot with
    | entry d =>
      cases found
      rw [← Array.getElem?_toList]
      exact List.mk_mem_zipIdx_iff_getElem?.mp member
    | gap => cases found
  · intro found
    rw [← Array.getElem?_toList] at found
    exact ⟨(.entry c, i), List.mk_mem_zipIdx_iff_getElem?.mpr found, rfl⟩

theorem zipIdx_ascending {α : Type} (xs : List α) : xs.zipIdx.Pairwise fun a b => a.2 < b.2 := by
  rw [← List.pairwise_map, List.zipIdx_map_snd]
  exact List.pairwise_lt_range'

theorem placed_ascending (p : Pool) : p.placed.Pairwise fun a b => a.1 < b.1 := by
  rw [placed, List.pairwise_filterMap]
  refine (zipIdx_ascending p.slots.toList).imp ?_
  rintro ⟨slot, i⟩ ⟨slot', j⟩ less ⟨i', c⟩ found ⟨j', d⟩ found'
  obtain ⟨_, _, same⟩ := Option.map_eq_some_iff.mp found
  obtain ⟨_, _, same'⟩ := Option.map_eq_some_iff.mp found'
  cases same
  cases same'
  exact less

theorem entries_eq (p : Pool) : p.entries = p.placed.map fun e => (UInt16.ofNat e.1, e.2) := by
  rw [entries, placed, List.map_filterMap]
  congr 1
  funext ⟨slot, i⟩
  cases slot with
  | entry c => rfl
  | gap => rfl

theorem mem_entries_of_get {p : Pool} {index : PoolIndex} {c : Constant}
    (found : p.get index = .ok c) : (index, c) ∈ p.entries := by
  rw [entries_eq, List.mem_map]
  refine ⟨(index.toNat, c), mem_placed_iff.mpr (get_eq_ok_iff.mp found), ?_⟩
  rw [UInt16.ofNat_toNat]

theorem toNat_of_placed {p : Pool} (fits : p.slots.size ≤ capacity) {e : Nat × Constant}
    (member : e ∈ p.placed) : (UInt16.ofNat e.1).toNat = e.1 := by
  obtain ⟨inside, _⟩ := Array.getElem?_eq_some_iff.mp (mem_placed_iff.mp member)
  have bound : e.1 < 0xFFFF := Nat.lt_of_lt_of_le inside fits
  rw [UInt16.toNat_ofNat', Nat.mod_eq_of_lt (Nat.lt_trans bound (by decide))]

/-- No index of an entry is cut off, as long as the slots can be numbered. -/
theorem map_toNat_entries {p : Pool} (fits : p.slots.size ≤ capacity) :
    p.entries.map (fun e => (e.1.toNat, e.2)) = p.placed := by
  rw [entries_eq, List.map_map]
  conv => rhs; rw [← List.map_id p.placed]
  apply List.map_congr_left
  intro e member
  exact Prod.ext (toNat_of_placed fits member) rfl

theorem mem_entries_iff {p : Pool} (fits : p.slots.size ≤ capacity) {index : PoolIndex}
    {c : Constant} : (index, c) ∈ p.entries ↔ p.get index = .ok c := by
  rw [get_eq_ok_iff, ← mem_placed_iff, ← map_toNat_entries fits, List.mem_map]
  constructor
  · intro member
    exact ⟨_, member, rfl⟩
  · rintro ⟨e, member, same⟩
    obtain ⟨index_eq, rfl⟩ := Prod.mk.inj same
    rw [UInt16.toNat_inj] at index_eq
    exact index_eq ▸ member

theorem entries_ascending {p : Pool} (fits : p.slots.size ≤ capacity) :
    p.entries.Pairwise fun a b => a.1 < b.1 := by
  have numbers := p.placed_ascending
  rw [← map_toNat_entries fits, List.pairwise_map] at numbers
  exact numbers.imp UInt16.lt_iff_toNat_lt.mpr

theorem toNat_count {p : Pool} (fits : p.slots.size ≤ capacity) :
    p.count.toNat = p.slots.size := by
  have bound : p.slots.size < 0x10000 := Nat.lt_of_le_of_lt fits (by decide)
  rw [count, UInt16.toNat_ofNat', Nat.mod_eq_of_lt bound]

theorem WellFormed.count_eq_span {p : Pool} (h : p.WellFormed) :
    p.count.toNat = 1 + span p.constants := by
  rw [toNat_count h.size_le, ← size_ofConstants, h.ofConstants_constants]

end Pool

end ClassFormat
