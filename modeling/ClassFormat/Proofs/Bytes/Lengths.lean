import ClassFormat.Proofs.Bytes.Emits

/-!
What stops a writing: nothing but a length that its field cannot hold. A judgement for each way in
which writings are put together, so that the condition for a whole file is read off its parts.
-/
namespace ClassFormat.Writing

/-- The writing is carried out if this holds, and otherwise a length is out of range. -/
structure StoppedUnless (w : Writing) (fits : Prop) : Prop where
  runs : fits → w.fault = none
  stops : ¬fits → w.fault = some .outOfRange

theorem StoppedUnless.congr {w : Writing} {p q : Prop} (h : w.StoppedUnless p) (same : p ↔ q) :
    w.StoppedUnless q :=
  ⟨fun fits => h.runs (same.mpr fits), fun long => h.stops fun fits => long (same.mp fits)⟩

theorem stoppedUnless_of_fault_eq_none {w : Writing} (runs : w.fault = none) :
    w.StoppedUnless True :=
  ⟨fun _ => runs, fun impossible => absurd trivial impossible⟩

theorem stoppedUnless_bytes (chunk : List UInt8) : (bytes chunk).StoppedUnless True :=
  stoppedUnless_of_fault_eq_none rfl

theorem stoppedUnless_value {α : Type} [FixedWidth α]
    (narrow : FixedWidth.width α ≤ Reading.streamWidth) (v : α) : (value v).StoppedUnless True := by
  apply stoppedUnless_of_fault_eq_none
  simp only [value, if_pos narrow, bytes]

theorem stoppedUnless_length (width n : Nat) :
    (length width n).StoppedUnless (n < 256 ^ width) := by
  constructor
  · intro fits
    simp [length, fits, bytes]
  · intro long
    simp [length, long, refuse]

/-- The first fault counts. -/
theorem fault_append (first second : Writing) :
    (first ++ second).fault = first.fault.or second.fault := by
  change (first.append second).fault = _
  cases stopped : first.fault with
  | none => simp [append, stopped]
  | some fault => simp [append, stopped]

theorem StoppedUnless.append {first second : Writing} {p q : Prop} (h : first.StoppedUnless p)
    (h' : second.StoppedUnless q) : (first ++ second).StoppedUnless (p ∧ q) := by
  constructor
  · rintro ⟨fits, fits'⟩
    simp only [fault_append, h.runs fits, h'.runs fits', Option.or_none]
  · intro long
    by_cases fits : p
    · have long' : ¬q := fun fits' => long ⟨fits, fits'⟩
      simp only [fault_append, h.runs fits, h'.stops long', Option.none_or]
    · simp only [fault_append, h.stops fits, Option.some_or]

/-- A value in front of a writing does not stop it. -/
theorem StoppedUnless.value_append {α : Type} [FixedWidth α]
    (narrow : FixedWidth.width α ≤ Reading.streamWidth) (v : α) {w : Writing} {p : Prop}
    (h : w.StoppedUnless p) : (value v ++ w).StoppedUnless p :=
  ((stoppedUnless_value narrow v).append h).congr (and_iff_right trivial)

section Tables

variable {α : Type} {item : α → Writing} {fits : α → Prop}

theorem stoppedUnless_all (each : ∀ x, (item x).StoppedUnless (fits x)) (items : List α) :
    (all (items.map item)).StoppedUnless (∀ x ∈ items, fits x) := by
  induction items with
  | nil => exact (stoppedUnless_of_fault_eq_none rfl).congr (by simp)
  | cons x items ih => exact ((each x).append ih).congr List.forall_mem_cons.symm

theorem stoppedUnless_table (each : ∀ x, (item x).StoppedUnless (fits x)) (items : List α) :
    (table item items).StoppedUnless (items.length ≤ 0xFFFF ∧ ∀ x ∈ items, fits x) :=
  ((stoppedUnless_length 2 items.length).append (stoppedUnless_all each items)).congr
    (and_congr_left' Nat.lt_succ_iff)

end Tables

namespace StoppedUnless

variable {w : Writing} {fits : Prop} (h : w.StoppedUnless fits)

include h

theorem exists_emits_iff : (∃ bytes, w.Emits bytes) ↔ fits := by
  constructor
  · rintro ⟨_, runs, _⟩
    by_cases holds : fits
    · exact holds
    · cases runs.symm.trans (h.stops holds)
  · intro holds
    exact ⟨_, h.runs holds, rfl⟩

theorem toBytes_eq_error (long : ¬fits) : w.toBytes = .error .outOfRange := by
  simp only [toBytes, h.stops long]

theorem eq_outOfRange {fault : EncodeFault} (stopped : w.toBytes = .error fault) :
    fault = .outOfRange := by
  by_cases holds : fits
  · simp [toBytes, h.runs holds] at stopped
  · exact Except.error.inj (stopped.symm.trans (h.toBytes_eq_error holds))

end StoppedUnless

end ClassFormat.Writing
