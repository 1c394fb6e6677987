import ClassFormat.Proofs.Constant.Equality
import ClassFormat.Proofs.Pool.History

/-!
Insertion of a constant that may be in the pool already. It gives the first index of an equal
constant, which no further insertions change (`findOrInsert_first`); what is written for it is what
the constant would be written as, unless it is a zero of the other sign (`findOrInsert_form`).
-/
namespace ClassFormat.Pool

/-- The constant at the index is equal to `c`, and none before it is. -/
structure FirstEqual (p : Pool) (c : Constant) (index : PoolIndex) : Prop where
  equal : ∃ d, p.get index = .ok d ∧ d.valueEq c = true
  first : ∀ i d, i < index → p.get i = .ok d → d.valueEq c = false

variable {p q : Pool} {c : Constant} {index : PoolIndex}

/-- The search follows the entries, and their indices ascend. -/
theorem find?_eq_some_iff (fits : p.slots.size ≤ capacity) {d : Constant} :
    p.find? (·.valueEq c) = some (index, d) ↔ p.get index = .ok d ∧ d.valueEq c = true ∧
      ∀ i e, i < index → p.get i = .ok e → e.valueEq c = false := by
  have ascending := entries_ascending fits
  rw [find?, List.find?_eq_some_iff_append]
  constructor
  · rintro ⟨equal, front, back, split, before⟩
    refine ⟨(mem_entries_iff fits).mp (by rw [split]; simp), equal, ?_⟩
    intro i e less found
    have member : (i, e) ∈ front ++ (index, d) :: back := split ▸ (mem_entries_iff fits).mpr found
    rw [split, List.pairwise_append, List.pairwise_cons] at ascending
    rcases List.mem_append.mp member with early | late
    · simpa using before (i, e) early
    · -- What stands at the index or behind it has no smaller index.
      rcases List.mem_cons.mp late with here | behind
      · cases here
        exact absurd less (UInt16.lt_irrefl _)
      · exact absurd less (UInt16.lt_asymm (ascending.2.1.1 (i, e) behind))
  · rintro ⟨found, equal, first⟩
    obtain ⟨front, back, split⟩ := List.append_of_mem ((mem_entries_iff fits).mpr found)
    refine ⟨equal, front, back, split, ?_⟩
    rintro ⟨i, e⟩ early
    rw [split, List.pairwise_append] at ascending
    have less : i < index := ascending.2.2 (i, e) early (index, d) List.mem_cons_self
    have found' : p.get i = .ok e := (mem_entries_iff fits).mp (by rw [split]; simp [early])
    simpa using first i e less found'

theorem FirstEqual.findOrInsert_eq (fits : p.slots.size ≤ capacity) (h : p.FirstEqual c index) :
    p.findOrInsert c = (.ok index, p) := by
  obtain ⟨d, found, equal⟩ := h.equal
  rw [findOrInsert, (find?_eq_some_iff fits).mpr ⟨found, equal, h.first⟩]

theorem exists_firstEqual (fits : p.slots.size ≤ capacity) {d : Constant}
    (found : p.get index = .ok d) (equal : d.valueEq c = true) : ∃ i, p.FirstEqual c i := by
  cases searched : p.find? (·.valueEq c) with
  | none =>
    rw [(find?_eq_none_iff fits).mp searched index d found] at equal
    cases equal
  | some entry =>
    obtain ⟨found', equal', first⟩ := (find?_eq_some_iff fits).mp searched
    exact ⟨entry.1, ⟨entry.2, found', equal'⟩, first⟩

theorem lt_count_of_get (fits : p.slots.size ≤ capacity) {d : Constant}
    (found : p.get index = .ok d) : index < p.count := by
  obtain ⟨inside, _⟩ := Array.getElem?_eq_some_iff.mp (get_eq_ok_iff.mp found)
  rw [UInt16.lt_iff_toNat_lt, toNat_count fits]
  exact inside

/-- All that insertion can do: nothing, with the first equal constant in the pool, or it puts the
constant behind all others, with none equal to it among them. -/
theorem findOrInsert_cases (fits : p.slots.size ≤ capacity)
    (done : p.findOrInsert c = (.ok index, q)) :
    (q = p ∧ p.FirstEqual c index) ∨
      (q = p.append c ∧ index = p.count ∧ ∀ i d, p.get i = .ok d → d.valueEq c = false) := by
  rcases p.findOrInsert_eq c with ⟨i, d, searched, found⟩ | ⟨none, inserted⟩
  · rw [found] at done
    cases done
    obtain ⟨found', equal, first⟩ := (find?_eq_some_iff fits).mp searched
    exact .inl ⟨rfl, ⟨d, found', equal⟩, first⟩
  · rw [inserted] at done
    rcases p.insert_eq c with ⟨_, appended⟩ | ⟨_, failed⟩
    · rw [appended] at done
      cases done
      exact .inr ⟨rfl, rfl, (find?_eq_none_iff fits).mp none⟩
    · rw [failed] at done
      cases done

theorem FirstEqual.append (fits : p.slots.size ≤ capacity) (h : p.FirstEqual c index)
    (e : Constant) : (p.append e).FirstEqual c index := by
  obtain ⟨d, found, equal⟩ := h.equal
  have inside := lt_count_of_get fits found
  have old : ∀ i, i ≤ index → (p.append e).get i = p.get i := by
    intro i before
    apply get_append_of_ne fits
    rintro rfl
    exact UInt16.lt_irrefl _ (UInt16.lt_of_lt_of_le inside before)
  constructor
  · exact ⟨d, by rw [old index (UInt16.le_refl index), found], equal⟩
  · intro i d less found'
    rw [old i (UInt16.le_of_lt less)] at found'
    exact h.first i d less found'

/-- The calls that put constants behind all others, if they change the pool at all. -/
def Edit.Inserts : Edit → Prop
  | .insert _ | .findOrInsert _ => True
  | .replace _ _ => False

theorem edit_of_inserts (p : Pool) {e : Edit} (inserts : e.Inserts) :
    p.edit e = p ∨ ∃ d, p.edit e = p.append d := by
  have appended (d : Constant) : (p.insert d).2 = p ∨ ∃ e, (p.insert d).2 = p.append e := by
    rcases p.append_cases d with ⟨_, _, pool⟩ | ⟨_, pool⟩
    · exact .inr ⟨d, pool⟩
    · exact .inl pool
  cases e with
  | insert d => exact appended d
  | findOrInsert d =>
    rcases p.findOrInsert_eq d with ⟨_, _, _, found⟩ | ⟨_, inserted⟩
    · exact .inl (by rw [edit, found])
    · rw [edit, inserted]
      exact appended d
  | replace i d => exact inserts.elim

theorem FirstEqual.edit (fits : p.slots.size ≤ capacity) (h : p.FirstEqual c index) {e : Edit}
    (inserts : e.Inserts) : (p.edit e).FirstEqual c index := by
  rcases p.edit_of_inserts inserts with same | ⟨d, appended⟩
  · rw [same]
    exact h
  · rw [appended]
    exact h.append fits d

theorem FirstEqual.edits (built : p.WellFormed) (h : p.FirstEqual c index) {calls : List Edit}
    (inserts : ∀ e ∈ calls, e.Inserts) :
    (calls.foldl Pool.edit p).WellFormed ∧ (calls.foldl Pool.edit p).FirstEqual c index := by
  induction calls generalizing p with
  | nil => exact ⟨built, h⟩
  | cons e calls ih =>
    obtain ⟨first, later⟩ := List.forall_mem_cons.mp inserts
    exact ih (built.edit e) (h.edit built.size_le first) later

theorem firstEqual_of_findOrInsert (fits : p.slots.size ≤ capacity) (number : ¬c.IsNaN)
    (done : p.findOrInsert c = (.ok index, q)) : q.FirstEqual c index := by
  rcases findOrInsert_cases fits done with ⟨rfl, h⟩ | ⟨rfl, rfl, absent⟩
  · exact h
  · constructor
    · exact ⟨c, get_append_count fits, Constant.valueEq_self number⟩
    · intro i d less found
      have other : i ≠ p.count := by
        rintro rfl
        exact UInt16.lt_irrefl _ less
      rw [get_append_of_ne fits other] at found
      exact absent i d found

/-- A constant that equals itself is found at the first index of an equal one, or else inserted; and
whichever it was, any insertions later it is found where it was before. -/
theorem findOrInsert_first (reachable : p.Reachable) (number : ¬c.IsNaN) :
    (∀ i d, p.get i = .ok d → d.valueEq c = true →
      ∃ index, p.FirstEqual c index ∧ p.findOrInsert c = (.ok index, p)) ∧
    ((∀ i d, p.get i = .ok d → d.valueEq c = false) → p.findOrInsert c = p.insert c) ∧
    ∀ index q, p.findOrInsert c = (.ok index, q) →
      ∀ calls : List Edit, (∀ e ∈ calls, e.Inserts) →
        (calls.foldl edit q).findOrInsert c = (.ok index, calls.foldl edit q) := by
  have built := reachable.wellFormed
  have fits := built.size_le
  refine ⟨?_, ?_, ?_⟩
  · intro i d found equal
    obtain ⟨index, h⟩ := exists_firstEqual fits found equal
    exact ⟨index, h, h.findOrInsert_eq fits⟩
  · intro absent
    rw [findOrInsert, (find?_eq_none_iff fits).mpr absent]
  · intro index q done calls inserts
    have after : q.WellFormed := by
      have kept := built.findOrInsert c
      rw [done] at kept
      exact kept
    obtain ⟨built', h⟩ := (firstEqual_of_findOrInsert fits number done).edits after inserts
    exact h.findOrInsert_eq built'.size_le

def twoZeros : Pool := ofConstants [.long 7, .float ⟨0x80000000⟩, .float ⟨0⟩]

/-- Of the two zeros the first is found, also after a third was inserted; a number that is not there
is inserted. -/
theorem findOrInsert_among_zeros :
    twoZeros.FirstEqual (.float ⟨0⟩) 3 ∧ twoZeros.findOrInsert (.float ⟨0⟩) = (.ok 3, twoZeros) ∧
      twoZeros.findOrInsert (.integer 5) = twoZeros.insert (.integer 5) ∧
      ([.insert (.float ⟨0⟩), .findOrInsert (.integer 6), .insert (.long 8)].foldl edit
        twoZeros).findOrInsert (.float ⟨0⟩) =
        (.ok 3, ofConstants [.long 7, .float ⟨0x80000000⟩, .float ⟨0⟩, .float ⟨0⟩, .integer 6,
          .long 8]) := by
  have reachable : twoZeros.Reachable :=
    reachable_iff_wellFormed.mpr (wellFormed_iff.mpr ⟨_, rfl, by decide⟩)
  have number : ¬(Constant.float ⟨0⟩).IsNaN := Bool.false_ne_true
  have done : twoZeros.findOrInsert (.float ⟨0⟩) = (.ok 3, twoZeros) := rfl
  have absent : ∀ i d, twoZeros.get i = .ok d → d.valueEq (.integer 5) = false :=
    (find?_eq_none_iff reachable.wellFormed.size_le).mp rfl
  obtain ⟨found, _, later⟩ := findOrInsert_first reachable number
  obtain ⟨index, first, same⟩ := found 4 (.float ⟨0⟩) rfl rfl
  cases done.symm.trans same
  refine ⟨first, same, (findOrInsert_first reachable id).2.1 absent, later 3 _ done _ ?_⟩
  simp [Edit.Inserts]

/-- What is found or inserted is written as the constant would be, unless it is the zero of the
other sign. This is given only where it is the first equal constant of the pool. -/
theorem findOrInsert_form (reachable : p.Reachable) (done : p.findOrInsert c = (.ok index, q)) :
    ∃ d, q.get index = .ok d ∧ d.kind = c.kind ∧
      (¬d.OppositeZeros c → d = c ∧ d.writing.toBytes = c.writing.toBytes) ∧
      (d.OppositeZeros c → q = p ∧ p.FirstEqual c index ∧
        d.writing.toBytes ≠ c.writing.toBytes) := by
  have fits := reachable.wellFormed.size_le
  rcases findOrInsert_cases fits done with ⟨rfl, h⟩ | ⟨rfl, rfl, _⟩
  · obtain ⟨d, found, equal⟩ := h.equal
    have apart : d.OppositeZeros c → d.writing.toBytes ≠ c.writing.toBytes :=
      (Constant.toBytes_writing_ne_iff equal).mpr
    rcases Constant.valueEq_iff.mp equal with ⟨rfl, _⟩ | opposite
    · exact ⟨d, found, rfl, fun _ => ⟨rfl, rfl⟩, fun opposite => ⟨rfl, h, apart opposite⟩⟩
    · exact ⟨d, found, opposite.kind_eq, fun same => absurd opposite same,
        fun _ => ⟨rfl, h, apart opposite⟩⟩
  · have itself : ¬c.OppositeZeros c := fun opposite => opposite.toBytes_writing_ne rfl
    exact ⟨c, get_append_count fits, rfl, fun _ => ⟨rfl, rfl⟩,
      fun opposite => absurd opposite itself⟩

def holdingNaN : Pool := ofConstants [.float ⟨0x7FC00001⟩, .double ⟨0⟩]

/-- A NaN is not found, though it is there, and inserted with its payload. -/
theorem findOrInsert_nan_again :
    holdingNaN.findOrInsert (.float ⟨0x7FC00001⟩) =
        (.ok 4, holdingNaN.append (.float ⟨0x7FC00001⟩)) ∧
      ∃ d, (holdingNaN.append (.float ⟨0x7FC00001⟩)).get 4 = .ok d ∧ d.kind = .float ∧
        d.writing.toBytes = .ok [0x04, 0x7F, 0xC0, 0x00, 0x01] := by
  have reachable : holdingNaN.Reachable :=
    reachable_iff_wellFormed.mpr (wellFormed_iff.mpr ⟨_, rfl, by decide⟩)
  have done : holdingNaN.findOrInsert (.float ⟨0x7FC00001⟩) =
      (.ok 4, holdingNaN.append (.float ⟨0x7FC00001⟩)) := rfl
  obtain ⟨d, found, kind, same, opposite⟩ := findOrInsert_form reachable done
  -- The pool has grown, so no other zero was given.
  have form := same fun zeros => absurd (opposite zeros).1 (by decide)
  exact ⟨done, d, found, kind, form.2⟩

/-- The negative zero counts as found where the other is, and is then written without its sign. -/
theorem findOrInsert_negative_zero :
    (ofConstants [.float ⟨0⟩]).Reachable ∧ (ofConstants [.float ⟨0⟩]).Faithful ∧
      (ofConstants [.float ⟨0⟩]).findOrInsert (.float ⟨0x80000000⟩) =
        (.ok 1, ofConstants [.float ⟨0⟩]) ∧
      (ofConstants [.float ⟨0⟩]).get 1 = .ok (.float ⟨0⟩) ∧
      (Constant.float ⟨0⟩).writing.toBytes = .ok [0x04, 0x00, 0x00, 0x00, 0x00] ∧
      (Constant.float ⟨0x80000000⟩).writing.toBytes = .ok [0x04, 0x80, 0x00, 0x00, 0x00] := by
  refine ⟨reachable_iff_wellFormed.mpr (wellFormed_iff.mpr ⟨_, rfl, by decide⟩), ?_, rfl, rfl, rfl,
    rfl⟩
  rw [Faithful, constants_ofConstants]
  simp [Constant.Faithful]

end ClassFormat.Pool
