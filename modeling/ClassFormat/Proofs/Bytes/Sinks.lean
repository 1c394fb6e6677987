import ClassFormat.Bytes.Sink
import ClassFormat.Proofs.Bytes.Lengths

/-!
Sinks as they are after some bytes, told from the bytes alone. A buffer of fixed capacity takes in
what a growing sink takes in, up to its end. Main statement: `StoppedUnless.truncates`.
-/
namespace ClassFormat

namespace Sink

/-- A growing sink that has taken in these bytes. -/
def grown (p : List UInt8) : Sink := ⟨p.toArray, none⟩

/-- A buffer that is filled up to the end of these bytes. -/
def filled (capacity : Nat) (p : List UInt8) : Sink := ⟨p.toArray, some (capacity - p.length)⟩

@[simp] theorem contents_grown (p : List UInt8) : (grown p).contents = p := by
  simp [contents, grown]

@[simp] theorem contents_filled (capacity : Nat) (p : List UInt8) :
    (filled capacity p).contents = p ++ List.replicate (capacity - p.length) 0 := by
  simp [contents, filled]

theorem put_grown (p chunk : List UInt8) : (grown p).put chunk = (grown (p ++ chunk), none) := by
  simp [put, grown]

theorem putAll_grown (p : List UInt8) (chunks : List (List UInt8)) :
    (grown p).putAll chunks = (grown (p ++ chunks.flatten), none) := by
  induction chunks generalizing p with
  | nil => simp [putAll]
  | cons chunk chunks ih =>
    simp only [putAll, put_grown, ih, List.flatten_cons, List.append_assoc]

section Filled

variable {capacity : Nat} {p : List UInt8}

theorem put_filled_of_le {chunk : List UInt8} (enough : (p ++ chunk).length ≤ capacity) :
    (filled capacity p).put chunk = (filled capacity (p ++ chunk), none) := by
  rw [List.length_append] at enough
  have room : chunk.length ≤ capacity - p.length := by omega
  simp [put, filled, room, Nat.sub_sub]

/-- A chunk that does not fit is cut off where the buffer ends. -/
theorem put_filled_of_lt {chunk : List UInt8} (fits : p.length ≤ capacity)
    (short : capacity < (p ++ chunk).length) :
    (filled capacity p).put chunk =
      (filled capacity ((p ++ chunk).take capacity), some .writeFail) := by
  rw [List.length_append] at short
  have large : ¬chunk.length ≤ capacity - p.length := by omega
  have cut : (p ++ chunk).take capacity = p ++ chunk.take (capacity - p.length) := by
    rw [List.take_append, List.take_of_length_le fits]
  have full : capacity - (p ++ chunk.take (capacity - p.length)).length = 0 := by
    rw [List.length_append, List.length_take]
    omega
  simp only [filled, cut, full]
  simp [put, large]

theorem putAll_filled_of_le {chunks : List (List UInt8)}
    (enough : (p ++ chunks.flatten).length ≤ capacity) :
    (filled capacity p).putAll chunks = (filled capacity (p ++ chunks.flatten), none) := by
  induction chunks generalizing p with
  | nil => simp [putAll]
  | cons chunk chunks ih =>
    rw [List.flatten_cons, ← List.append_assoc] at enough ⊢
    have first : (p ++ chunk).length ≤ capacity := by
      rw [List.length_append] at enough
      omega
    simp only [putAll, put_filled_of_le first, ih enough]

/-- The chunks before the end of the buffer are taken in whole, and none behind it are tried. -/
theorem putAll_filled_of_lt {chunks : List (List UInt8)} (fits : p.length ≤ capacity)
    (short : capacity < (p ++ chunks.flatten).length) :
    (filled capacity p).putAll chunks =
      (filled capacity ((p ++ chunks.flatten).take capacity), some .writeFail) := by
  induction chunks generalizing p with
  | nil =>
    rw [List.flatten_nil, List.append_nil] at short
    omega
  | cons chunk chunks ih =>
    rw [List.flatten_cons, ← List.append_assoc] at short ⊢
    by_cases first : (p ++ chunk).length ≤ capacity
    · simp only [putAll, put_filled_of_le first, ih first short]
    · have cut : (p ++ chunk ++ chunks.flatten).take capacity = (p ++ chunk).take capacity :=
        List.take_append_of_le_length (Nat.le_of_not_le first)
      simp only [putAll, put_filled_of_lt fits (Nat.lt_of_not_le first), cut]

end Filled

variable (w : Writing)

theorem run_grown (p : List UInt8) :
    (grown p).run w = (grown (p ++ w.chunks.flatten), w.fault) := by
  simp only [run, putAll_grown]

theorem run_growing : growing.run w = (grown w.chunks.flatten, w.fault) :=
  run_grown w []

theorem run_bounded_of_le {capacity : Nat} (enough : w.chunks.flatten.length ≤ capacity) :
    (bounded capacity).run w = (filled capacity w.chunks.flatten, w.fault) := by
  have start : bounded capacity = filled capacity [] := rfl
  have all := putAll_filled_of_le (p := []) enough
  simp only [run, start, all, List.nil_append]

/-- Where the buffer ends first, a fault of the writing itself is not come to. -/
theorem run_bounded_of_lt {capacity : Nat} (short : capacity < w.chunks.flatten.length) :
    (bounded capacity).run w =
      (filled capacity (w.chunks.flatten.take capacity), some .writeFail) := by
  have start : bounded capacity = filled capacity [] := rfl
  have all := putAll_filled_of_lt (p := []) (Nat.zero_le capacity) short
  simp only [run, start, all, List.nil_append]

end Sink

namespace Writing

/-- What comes of the writing on a buffer of zeros, set against what comes of it on a growing sink:
the bytes are the same as far as the buffer goes, and so is the outcome if it goes far enough. -/
structure Truncates (w : Writing) : Prop where
  outcome : (Sink.growing.run w).2 = none ∨ (Sink.growing.run w).2 = some .outOfRange
  short : ∀ capacity, capacity < (Sink.growing.run w).1.contents.length →
    ((Sink.bounded capacity).run w).2 = some .writeFail ∧
      ((Sink.bounded capacity).run w).1.contents =
        (Sink.growing.run w).1.contents.take capacity
  enough : ∀ capacity, (Sink.growing.run w).1.contents.length ≤ capacity →
    ((Sink.bounded capacity).run w).2 = (Sink.growing.run w).2 ∧
      ((Sink.bounded capacity).run w).1.contents = (Sink.growing.run w).1.contents ++
        List.replicate (capacity - (Sink.growing.run w).1.contents.length) 0

theorem StoppedUnless.truncates {w : Writing} {fits : Prop} (h : w.StoppedUnless fits) :
    w.Truncates := by
  constructor
  · rw [Sink.run_growing]
    by_cases holds : fits
    · exact .inl (h.runs holds)
    · exact .inr (h.stops holds)
  · intro capacity
    rw [Sink.run_growing, Sink.contents_grown]
    intro short
    have cut : capacity - (w.chunks.flatten.take capacity).length = 0 := by
      rw [List.length_take]
      omega
    rw [Sink.run_bounded_of_lt w short, Sink.contents_filled, cut]
    exact ⟨rfl, List.append_nil _⟩
  · intro capacity
    rw [Sink.run_growing, Sink.contents_grown]
    intro enough
    rw [Sink.run_bounded_of_le w enough, Sink.contents_filled]
    exact ⟨rfl, rfl⟩

end Writing

end ClassFormat
