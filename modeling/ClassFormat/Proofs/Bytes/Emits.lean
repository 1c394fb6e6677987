import ClassFormat.Bytes.Writing
import ClassFormat.Proofs.Bytes.Reads

/-!
Which bytes a writing hands over, set against the bytes that a reading takes. Main statement:
`reads_counted_iff`, by which a table is read back exactly when its items are.
-/
namespace ClassFormat

namespace Writing

/-- The writing is not stopped, and these are the bytes that it hands over. -/
def Emits (w : Writing) (bytes : List UInt8) : Prop := w.fault = none ∧ w.chunks.flatten = bytes

theorem toBytes_eq_ok_iff {w : Writing} {bytes : List UInt8} :
    w.toBytes = .ok bytes ↔ w.Emits bytes := by
  rw [toBytes, Emits]
  cases w.fault with
  | none => simp
  | some fault => simp

@[simp] theorem emits_empty_iff {bytes : List UInt8} : empty.Emits bytes ↔ bytes = [] := by
  simp [Emits, empty, eq_comm]

@[simp] theorem emits_refuse_iff {fault : EncodeFault} {bytes : List UInt8} :
    (refuse fault).Emits bytes ↔ False := by
  simp [Emits, refuse]

@[simp] theorem emits_bytes_iff {chunk bytes : List UInt8} :
    (Writing.bytes chunk).Emits bytes ↔ bytes = chunk := by
  simp [Emits, Writing.bytes, eq_comm]

theorem emits_append_iff {first second : Writing} {bytes : List UInt8} :
    (first ++ second).Emits bytes ↔
      ∃ front back, bytes = front ++ back ∧ first.Emits front ∧ second.Emits back := by
  change (first.append second).Emits bytes ↔ _
  constructor
  · intro h
    cases stopped : first.fault with
    | some fault => simp [append, Emits, stopped] at h
    | none =>
      simp only [append, Emits, stopped, List.flatten_append] at h
      exact ⟨_, _, h.2.symm, ⟨stopped, rfl⟩, h.1, rfl⟩
  · rintro ⟨_, _, rfl, ⟨running, rfl⟩, running', rfl⟩
    simp [append, Emits, running, running']

theorem emits_value_iff {α : Type} [FixedWidth α]
    (narrow : FixedWidth.width α ≤ Reading.streamWidth) {v : α} {bytes : List UInt8} :
    (value v).Emits bytes ↔ bytes = FixedWidth.encode v := by
  rw [value, if_pos narrow, emits_bytes_iff]

theorem emits_value_append_iff {α : Type} [FixedWidth α]
    (narrow : FixedWidth.width α ≤ Reading.streamWidth) {v : α} {w : Writing}
    {bytes : List UInt8} :
    (value v ++ w).Emits bytes ↔ ∃ back, bytes = FixedWidth.encode v ++ back ∧ w.Emits back := by
  rw [emits_append_iff]
  constructor
  · rintro ⟨front, back, rfl, first, second⟩
    exact ⟨back, by rw [(emits_value_iff narrow).mp first], second⟩
  · rintro ⟨back, rfl, second⟩
    exact ⟨_, back, rfl, (emits_value_iff narrow).mpr rfl, second⟩

theorem emits_length_iff {width n : Nat} {bytes : List UInt8} :
    (length width n).Emits bytes ↔ n < 256 ^ width ∧ bytes = BigEndian.toBytes width n := by
  by_cases fits : n < 256 ^ width
  · simp [length, fits]
  · simp [length, fits]

/-- A length goes ahead of what it announces as a value of the type of that width. -/
theorem emits_length_append_iff (α : Type) [FixedWidth α] [LawfulFixedWidth α] (width : Nat)
    (same : width = FixedWidth.width α) {n : Nat} {w : Writing} {bytes : List UInt8} :
    (length width n ++ w).Emits bytes ↔
      ∃ (count : α) (back : List UInt8), (FixedWidth.toBits count).toNat = n ∧
        bytes = FixedWidth.encode count ++ back ∧ w.Emits back := by
  subst same
  simp only [emits_append_iff, emits_length_iff, FixedWidth.encode_eq_iff]
  constructor
  · rintro ⟨front, back, rfl, ⟨count, announced, rfl⟩, second⟩
    exact ⟨count, back, announced, rfl, second⟩
  · rintro ⟨count, back, announced, rfl, second⟩
    exact ⟨_, back, rfl, ⟨count, announced, rfl⟩, second⟩

theorem all_cons (w : Writing) (ws : List Writing) : all (w :: ws) = w ++ all ws := rfl

@[simp] theorem emits_all_nil_iff {bytes : List UInt8} : (all []).Emits bytes ↔ bytes = [] :=
  emits_empty_iff

theorem append_assoc (first second third : Writing) :
    first ++ second ++ third = first ++ (second ++ third) := by
  obtain ⟨chunks, _ | fault⟩ := first
  · obtain ⟨chunks', _ | fault'⟩ := second
    · exact congrArg (Writing.mk · third.fault) (List.append_assoc ..)
    · rfl
  · rfl

theorem all_append (ws vs : List Writing) : all (ws ++ vs) = all ws ++ all vs := by
  induction ws with
  | nil => rfl
  | cons w ws ih => simp only [List.cons_append, all_cons, ih, append_assoc]

theorem emits_all_append_iff {ws vs : List Writing} {bytes : List UInt8} :
    (all (ws ++ vs)).Emits bytes ↔
      ∃ front back, bytes = front ++ back ∧ (all ws).Emits front ∧ (all vs).Emits back := by
  rw [all_append, emits_append_iff]

end Writing

namespace Reading

variable {α : Type} {item : Reading α} {w : α → Writing}

/-- Items are read back behind those of `found`. The induction is on their number, with the bytes
and the items found so far free. -/
theorem reads_repeatOnto_iff (exact : ∀ bytes v, item.Reads bytes v ↔ (w v).Emits bytes) {n : Nat}
    {found vs : List α} {bytes : List UInt8} :
    (repeatOnto item n found).Reads bytes vs ↔
      ∃ later, vs = found.reverse ++ later ∧ later.length = n ∧
        (Writing.all (later.map w)).Emits bytes := by
  induction n generalizing found bytes with
  | zero =>
    rw [repeatOnto, reads_done_iff]
    constructor
    · rintro ⟨rfl, rfl⟩
      exact ⟨[], by simp, rfl, by simp⟩
    · rintro ⟨later, rfl, none, emits⟩
      cases List.length_eq_zero_iff.mp none
      exact ⟨by simpa using emits, by simp⟩
  | succ n ih =>
    simp only [repeatOnto, reads_bind_iff, ih, exact]
    constructor
    · rintro ⟨v, front, back, rfl, first, later, rfl, rfl, second⟩
      refine ⟨v :: later, by simp, rfl, ?_⟩
      rw [List.map_cons, Writing.all_cons, Writing.emits_append_iff]
      exact ⟨front, back, rfl, first, second⟩
    · rintro ⟨later, rfl, count, emits⟩
      cases later with
      | nil => cases count
      | cons v later =>
        rw [List.map_cons, Writing.all_cons, Writing.emits_append_iff] at emits
        obtain ⟨front, back, rfl, first, second⟩ := emits
        exact ⟨v, front, back, rfl, first, later, by simp, Nat.succ.inj count, second⟩

theorem reads_table_iff (exact : ∀ bytes v, item.Reads bytes v ↔ (w v).Emits bytes) {n : Nat}
    {vs : List α} {bytes : List UInt8} :
    (table n item).Reads bytes vs ↔ vs.length = n ∧ (Writing.all (vs.map w)).Emits bytes := by
  rw [table, reads_repeatOnto_iff exact]
  simp

theorem reads_counted_iff (exact : ∀ bytes v, item.Reads bytes v ↔ (w v).Emits bytes)
    {vs : List α} {bytes : List UInt8} :
    ((value UInt16).bind fun count => table count.toNat item).Reads bytes vs ↔
      (Writing.table w vs).Emits bytes := by
  rw [reads_value_bind_iff (by decide), Writing.table,
    Writing.emits_length_append_iff UInt16 2 rfl]
  simp only [reads_table_iff exact]
  constructor
  · rintro ⟨count, back, rfl, announced, items⟩
    exact ⟨count, back, announced.symm, rfl, items⟩
  · rintro ⟨count, back, announced, rfl, items⟩
    exact ⟨count, back, rfl, announced.symm, items⟩

end Reading

end ClassFormat
