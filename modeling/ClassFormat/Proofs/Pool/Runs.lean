import ClassFormat.Proofs.Pool.Codec

/-!
Runs of operations on a pool. What one operation preserves holds of every pool that is reached.
-/
namespace ClassFormat.Pool

inductive Edit where
  | insert (c : Constant)
  | findOrInsert (c : Constant)
  | replace (index : PoolIndex) (c : Constant)
  deriving DecidableEq, Repr

/-- The pool after an operation, whether or not it succeeded. -/
def edit (p : Pool) : Edit → Pool
  | .insert c => (p.insert c).2
  | .findOrInsert c => (p.findOrInsert c).2
  | .replace index c => (p.replace index c).2

/-- The pools that come of the empty one, or of one that was read, by operations in any order. -/
inductive Reachable : Pool → Prop where
  | empty : Reachable empty
  | read {count : UInt16} {input : List UInt8} {p : Pool} :
      ((Pool.reading count).run input).result = .ok p → Reachable p
  | drained {count : UInt16} {source : Source} {p : Pool} :
      ((Pool.reading count).drain source).result = .ok p → Reachable p
  | edit {p : Pool} (e : Edit) : Reachable p → Reachable (p.edit e)

theorem insert_eq (p : Pool) (c : Constant) :
    (p.slots.size + c.width ≤ capacity ∧ p.insert c = (.ok p.count, p.append c)) ∨
      (capacity < p.slots.size + c.width ∧ p.insert c = (.error .overflow, p)) := by
  by_cases room : p.slots.size + c.width ≤ capacity
  · exact .inl ⟨room, by rw [insert, if_neg (Nat.not_lt.mpr room)]⟩
  · exact .inr ⟨Nat.lt_of_not_le room, by rw [insert, if_pos (Nat.lt_of_not_le room)]⟩

theorem findOrInsert_eq (p : Pool) (c : Constant) :
    (∃ index d, p.find? (·.valueEq c) = some (index, d) ∧ p.findOrInsert c = (.ok index, p)) ∨
      (p.find? (·.valueEq c) = none ∧ p.findOrInsert c = p.insert c) := by
  rw [findOrInsert]
  cases found : p.find? (·.valueEq c) with
  | some entry => exact .inl ⟨entry.1, entry.2, rfl, rfl⟩
  | none => exact .inr ⟨rfl, rfl⟩

theorem replace_eq (p : Pool) (index : PoolIndex) (c : Constant) :
    (∃ old, p.get index = .ok old ∧ old.isWide = c.isWide ∧
      p.replace index c = (.ok old, ⟨p.slots.setIfInBounds index.toNat (.entry c)⟩)) ∨
      ∃ e, p.replace index c = (.error e, p) := by
  rw [replace]
  cases p.get index with
  | error e => exact .inr ⟨e, rfl⟩
  | ok old =>
    by_cases same : old.isWide = c.isWide
    · exact .inl ⟨old, rfl, same, if_pos same⟩
    · exact .inr ⟨_, if_neg same⟩

theorem WellFormed.insert {p : Pool} (h : p.WellFormed) (c : Constant) :
    (p.insert c).2.WellFormed := by
  rcases p.insert_eq c with ⟨room, done⟩ | ⟨_, failed⟩
  · rw [done]
    exact h.append room
  · rw [failed]
    exact h

theorem WellFormed.findOrInsert {p : Pool} (h : p.WellFormed) (c : Constant) :
    (p.findOrInsert c).2.WellFormed := by
  rcases p.findOrInsert_eq c with ⟨index, d, _, found⟩ | ⟨_, inserted⟩
  · rw [found]
    exact h
  · rw [inserted]
    exact h.insert c

/-- The layout depends on where the gaps and the wide constants are, and on nothing else. -/
theorem WellFormed.of_same_shape {p q : Pool} (h : p.WellFormed)
    (size : q.slots.size = p.slots.size)
    (gap_iff : ∀ j : Nat, q.slots[j]? = some .gap ↔ p.slots[j]? = some .gap)
    (wide_iff : ∀ j : Nat, (∃ d, q.slots[j]? = some (.entry d) ∧ d.isWide = true) ↔
      ∃ d, p.slots[j]? = some (.entry d) ∧ d.isWide = true) : q.WellFormed := by
  constructor
  · exact size ▸ h.size_le
  · exact (gap_iff 0).mpr h.first_gap
  · intro j inside
    rw [gap_iff, wide_iff]
    exact h.gap_iff j (size ▸ inside)
  · intro j d found wide
    obtain ⟨d', found', wide'⟩ := (wide_iff j).mp ⟨d, found, wide⟩
    exact size ▸ h.wide_not_last j d' found' wide'

theorem WellFormed.set {p : Pool} (h : p.WellFormed) {i : Nat} {old c : Constant}
    (found : p.slots[i]? = some (.entry old)) (same : old.isWide = c.isWide) :
    (⟨p.slots.setIfInBounds i (.entry c)⟩ : Pool).WellFormed := by
  obtain ⟨inside, _⟩ := Array.getElem?_eq_some_iff.mp found
  have here : (p.slots.setIfInBounds i (.entry c))[i]? = some (.entry c) := by
    rw [Array.getElem?_setIfInBounds, if_pos rfl, if_pos inside]
  have elsewhere : ∀ j : Nat, j ≠ i →
      (p.slots.setIfInBounds i (.entry c))[j]? = p.slots[j]? := by
    intro j other
    rw [Array.getElem?_setIfInBounds, if_neg (Ne.symm other)]
  apply h.of_same_shape
  · exact Array.size_setIfInBounds
  · intro j
    by_cases at_i : j = i
    · subst at_i
      rw [here, found]
      simp
    · rw [elsewhere j at_i]
  · intro j
    by_cases at_i : j = i
    · subst at_i
      rw [here, found]
      simp [same]
    · rw [elsewhere j at_i]

theorem WellFormed.replace {p : Pool} (h : p.WellFormed) (index : PoolIndex) (c : Constant) :
    (p.replace index c).2.WellFormed := by
  rcases p.replace_eq index c with ⟨old, found, same, done⟩ | ⟨e, failed⟩
  · rw [done]
    exact h.set (get_eq_ok_iff.mp found) same
  · rw [failed]
    exact h

theorem WellFormed.edit {p : Pool} (h : p.WellFormed) (e : Edit) : (p.edit e).WellFormed := by
  cases e with
  | insert c => exact h.insert c
  | findOrInsert c => exact h.findOrInsert c
  | replace index c => exact h.replace index c

theorem Reachable.wellFormed {p : Pool} (reachable : p.Reachable) : p.WellFormed := by
  induction reachable with
  | empty => exact wellFormed_empty
  | read accepted =>
    obtain ⟨bytes, reads, _⟩ := Reading.reads_of_runFrom accepted
    exact (reads_iff.mp reads).1
  | drained accepted =>
    obtain ⟨bytes, reads⟩ := Reading.reads_of_drainFrom accepted
    exact (reads_iff.mp reads).1
  | edit e _ ih => exact ih.edit e

theorem Reachable.foldl_append {p : Pool} (reachable : p.Reachable) {cs : List Constant}
    (room : p.slots.size + span cs ≤ capacity) : (cs.foldl append p).Reachable := by
  induction cs generalizing p with
  | nil => exact reachable
  | cons c cs ih =>
    rw [span_cons] at room
    have inserted : p.edit (.insert c) = p.append c := by
      rcases p.insert_eq c with ⟨_, done⟩ | ⟨full, _⟩
      · rw [Pool.edit, done]
      · omega
    have next : (p.append c).Reachable := inserted ▸ reachable.edit (.insert c)
    exact ih next (by rw [size_append]; omega)

/-- The layout says all that there is to say about what operations can build. -/
theorem reachable_iff_wellFormed {p : Pool} : p.Reachable ↔ p.WellFormed := by
  constructor
  · exact Reachable.wellFormed
  · intro h
    obtain ⟨cs, rfl, room⟩ := wellFormed_iff.mp h
    exact Reachable.empty.foldl_append room

theorem reachable_ofConstants {cs : List Constant} (room : 1 + span cs ≤ capacity) :
    (ofConstants cs).Reachable :=
  reachable_iff_wellFormed.mpr (wellFormed_iff.mpr ⟨cs, rfl, room⟩)

/-- Inserts constants as they are read until the count is reached, at most `n` of them. -/
def insertionsUntil (count : UInt16) : (n : Nat) → Pool → Reading Pool
  | 0, p => .done p
  | n + 1, p =>
    if p.count < count then
      Constant.reading.bind fun c =>
        match p.insert c with
        | (.ok _, q) => insertionsUntil count n q
        | (.error _, _) => .refuse .constantPoolOverrun
    else if p.count = count then .done p
    else .refuse .constantPoolOverrun

theorem insertionsUntil_eq {count : UInt16} {left n : Nat} (found : List Constant)
    (size : 1 + span found.reverse + left = count.toNat) (enough : left < n) :
    insertionsUntil count n (ofConstants found.reverse) =
      (constantsOnto left found).bind fun cs => .done (ofConstants cs) := by
  induction left using Nat.strongRecOn generalizing n found with
  | ind left ih =>
    obtain ⟨n, rfl⟩ : ∃ k, n = k + 1 := ⟨n - 1, by omega⟩
    have limit : count.toNat ≤ capacity := Nat.le_of_lt_succ count.toNat_lt
    have counted : (ofConstants found.reverse).count.toNat = 1 + span found.reverse := by
      rw [toNat_count (by rw [size_ofConstants]; omega), size_ofConstants]
    rw [insertionsUntil]
    cases left with
    | zero =>
      have reached : (ofConstants found.reverse).count = count := by
        rw [← UInt16.toNat_inj, counted, ← size, Nat.add_zero]
      rw [if_neg (by rw [reached]; exact UInt16.lt_irrefl count), if_pos reached]
      rfl
    | succ left =>
      rw [if_pos (by rw [UInt16.lt_iff_toNat_lt, counted]; omega), constantsOnto,
        Reading.bind_assoc]
      congr 1
      funext c
      have appended : (ofConstants found.reverse).append c = ofConstants (c :: found).reverse := by
        rw [List.reverse_cons, ofConstants, ofConstants, List.foldl_append]
        rfl
      have span_found : span (c :: found).reverse = span found.reverse + c.width := by
        simp
      rcases (ofConstants found.reverse).insert_eq c with ⟨room, done⟩ | ⟨full, failed⟩
      · rw [done, appended]
        dsimp only
        by_cases wide : c.isWide = true
        · have width : c.width = 2 := by rw [Constant.width, if_pos wide]
          rw [if_pos wide]
          cases left with
          | zero =>
            -- The second slot of the constant is one too many, but the pool has room for it.
            obtain ⟨n, rfl⟩ : ∃ k, n = k + 1 := ⟨n - 1, by omega⟩
            rw [size_ofConstants, width] at room
            have past : (ofConstants (c :: found).reverse).count.toNat = count.toNat + 1 := by
              rw [toNat_count (by rw [size_ofConstants]; omega), size_ofConstants]
              omega
            rw [insertionsUntil, if_neg (by rw [UInt16.lt_iff_toNat_lt, past]; omega),
              if_neg (by rw [← UInt16.toNat_inj, past]; omega)]
            rfl
          | succ left => exact ih left (by omega) (c :: found) (by omega) (by omega)
        · have width : c.width = 1 := by rw [Constant.width, if_neg wide]
          rw [if_neg wide]
          exact ih left (by omega) (c :: found) (by omega) (by omega)
      · rw [size_ofConstants] at full
        have wide : c.isWide = true := by
          apply Constant.isWide_of_width
          omega
        have last : left = 0 := by
          have := c.width_le
          omega
        subst last
        rw [failed, if_pos wide]
        rfl

/-- Reading a pool is a run of insertions into the empty one. -/
theorem reading_eq_insertions (count : UInt16) :
    reading count = if count = 0 then .refuse .emptyConstantPool
      else insertionsUntil count count.toNat empty := by
  rw [reading]
  split
  · rfl
  · rename_i some
    have positive : 0 < count.toNat :=
      Nat.pos_of_ne_zero fun zero => some (UInt16.toNat_inj.mp zero)
    exact (insertionsUntil_eq [] (by simp; omega) (by omega)).symm

/-- Inserts constants one after the other, up to the first that does not fit. -/
def insertAll (p : Pool) : List Constant → Except PoolError (List PoolIndex) × Pool
  | [] => (.ok [], p)
  | c :: cs =>
    match p.insert c with
    | (.error e, q) => (.error e, q)
    | (.ok index, q) =>
      match q.insertAll cs with
      | (.error e, q) => (.error e, q)
      | (.ok indices, q) => (.ok (index :: indices), q)

theorem entries_append (p : Pool) (c : Constant) :
    (p.append c).entries = p.entries ++ [(p.count, c)] := by
  rw [entries, toList_append, List.zipIdx_append, List.filterMap_append, ← entries,
    Array.length_toList, Nat.zero_add, Constant.slots, count]
  split
  · rfl
  · rfl

theorem insertAll_of_room {p : Pool} {cs : List Constant}
    (room : p.slots.size + span cs ≤ capacity) :
    ∃ indices, p.insertAll cs = (.ok indices, cs.foldl append p) ∧ indices.length = cs.length ∧
      (cs.foldl append p).entries = p.entries ++ indices.zip cs := by
  induction cs generalizing p with
  | nil => exact ⟨[], rfl, rfl, by simp⟩
  | cons c cs ih =>
    rw [span_cons] at room
    have first : p.insert c = (.ok p.count, p.append c) := by
      rcases p.insert_eq c with ⟨_, done⟩ | ⟨full, _⟩
      · exact done
      · omega
    obtain ⟨indices, inserted, length, entries⟩ := ih (p := p.append c) (by rw [size_append]; omega)
    refine ⟨p.count :: indices, ?_, congrArg (· + 1) length, ?_⟩
    · simp only [insertAll, first, inserted, List.foldl_cons]
    · rw [List.foldl_cons, entries, entries_append, List.append_assoc]
      rfl

theorem WellFormed.insertAll_constants {p : Pool} (h : p.WellFormed) :
    empty.insertAll p.constants = (.ok (p.entries.map (·.1)), p) := by
  have room : empty.slots.size + span p.constants ≤ capacity := by
    have size := h.count_eq_span
    rw [toNat_count h.size_le] at size
    exact Nat.le_trans (Nat.le_of_eq size.symm) h.size_le
  obtain ⟨indices, inserted, length, entries⟩ := insertAll_of_room room
  have rebuilt : p.constants.foldl Pool.append empty = p := h.ofConstants_constants
  rw [rebuilt] at inserted entries
  have empty_entries : empty.entries = [] := rfl
  rw [inserted, entries, empty_entries, List.nil_append,
    List.map_fst_zip (Nat.le_of_eq length)]

theorem WellFormed.isEmpty_iff {p : Pool} (h : p.WellFormed) :
    p.isEmpty = true ↔ p.length = 0 := by
  have size := h.count_eq_span
  rw [toNat_count h.size_le] at size
  rw [isEmpty, decide_eq_true_eq, size, length, ← List.length_map (·.2), ← constants]
  cases p.constants with
  | nil => simp
  | cons c cs =>
    have positive := c.width_le
    rw [span_cons, List.length_cons]
    constructor
    · intro small
      omega
    · intro impossible
      cases impossible

/-- What the layout of the slots means for all that reads them. -/
structure Layout (p : Pool) : Prop where
  wellFormed : p.WellFormed
  count_eq_size : p.count.toNat = p.slots.size
  count_eq_span : p.count.toNat = 1 + span (p.entries.map (·.2))
  mem_entries : ∀ index c, (index, c) ∈ p.entries ↔ p.get index = .ok c
  /-- No index of an entry is cut off. -/
  untruncated : p.entries.map (fun e => (e.1.toNat, e.2)) = p.placed
  ascending : p.entries.Pairwise fun a b => a.1 < b.1
  length_eq : p.length = p.entries.length
  isEmpty_iff : p.isEmpty = true ↔ p.length = 0
  rebuilt : empty.insertAll (p.entries.map (·.2)) = (.ok (p.entries.map (·.1)), p)

theorem reachable_layout {p : Pool} (reachable : p.Reachable) : p.Layout := by
  have h := reachable.wellFormed
  exact {
    wellFormed := h
    count_eq_size := toNat_count h.size_le
    count_eq_span := h.count_eq_span
    mem_entries := fun _ _ => mem_entries_iff h.size_le
    untruncated := map_toNat_entries h.size_le
    ascending := entries_ascending h.size_le
    length_eq := rfl
    isEmpty_iff := h.isEmpty_iff
    rebuilt := h.insertAll_constants
  }

/-- A run in which a replacement fails and a constant is found again. -/
theorem layout_after_edits :
    ∃ p : Pool, p.Reachable ∧ p.slots = #[.gap, .entry (.double ⟨0⟩), .gap, .entry (.integer 5)] ∧
      p.Layout := by
  have reachable := Reachable.empty
    |>.edit (.insert (.long 7))
    |>.edit (.replace 1 (.integer 5))
    |>.edit (.findOrInsert (.integer 5))
    |>.edit (.findOrInsert (.integer 5))
    |>.edit (.replace 1 (.double ⟨0⟩))
  exact ⟨_, reachable, rfl, reachable_layout reachable⟩

end ClassFormat.Pool
