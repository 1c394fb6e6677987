import ClassFormat.Proofs.Bytes.Scalar
import ClassFormat.Proofs.Bytes.Sinks

/-!
Scalars of mixed types one after the other in a stream. They are read back by the list of their
types, and a value that is too wide for streams fails in its turn, wherever it comes, without a
trace in what the others find. Main statement: `scalars_streamed`.
-/
namespace ClassFormat

namespace Reading

variable {α W : Type} [FixedWidth W]

/-- What is left of the input behind readings in turn. -/
def leftBy : List (Reading α) → List UInt8 → List UInt8
  | [], input => input
  | r :: rs, input => leftBy rs (r.run input).rest

/-- Wherever the reading is put among others, it fails and takes no bytes, and all others have the
replies that they have without it. -/
def FailsAlone (r : Reading α) (fault : DecodeFault) : Prop :=
  ∀ (before after : List (Reading α)) (input : List UInt8),
    runEach (before ++ r :: after) input =
        (runEach (before ++ after) input).insertIdx before.length
          ⟨.error fault, 0, leftBy before input⟩ ∧
      leftBy (before ++ r :: after) input = leftBy (before ++ after) input

/-- A reading fails alone that refuses every input before it takes a byte. -/
theorem failsAlone_of_run {r : Reading α} {fault : DecodeFault}
    (refused : ∀ input, r.run input = ⟨.error fault, 0, input⟩) : r.FailsAlone fault := by
  intro before after input
  induction before generalizing input with
  | nil =>
    simp only [List.nil_append, runEach, leftBy, refused, List.length_nil, List.insertIdx_zero,
      and_self]
  | cons first before ih =>
    have later := ih (first.run input).rest
    simp only [List.cons_append, runEach, leftBy, later.1, later.2, List.length_cons,
      List.insertIdx_succ_cons, and_self]

/-- The width is looked at before any byte is wanted. -/
theorem run_value_bind_of_wide (wide : streamWidth < FixedWidth.width W) (next : W → Reading α)
    (input : List UInt8) :
    ((value W).bind next).run input =
      ⟨.error (.sizeMismatch (.tooSmall (FixedWidth.width W) streamWidth)), 0, input⟩ := by
  rw [value, if_neg (Nat.not_le_of_lt wide)]
  rfl

end Reading

namespace Writing

variable {W : Type} [FixedWidth W]

/-- Wherever the writing is put among others, it fails and hands over no bytes, and all others fare
as they do without it. -/
def FailsAlone (w : Writing) (fault : EncodeFault) : Prop :=
  ∀ (before after : List Writing) (s : Sink),
    s.runEach (before ++ w :: after) = ((s.runEach (before ++ after)).1,
      (s.runEach (before ++ after)).2.insertIdx before.length (some fault))

theorem failsAlone_of_run {w : Writing} {fault : EncodeFault}
    (refused : ∀ s : Sink, s.run w = (s, some fault)) : w.FailsAlone fault := by
  intro before after s
  induction before generalizing s with
  | nil =>
    simp only [List.nil_append, Sink.runEach, refused, List.length_nil, List.insertIdx_zero]
  | cons first before ih =>
    simp only [List.cons_append, Sink.runEach, ih, List.length_cons, List.insertIdx_succ_cons]

theorem run_value_of_wide (wide : Reading.streamWidth < FixedWidth.width W) (v : W) (s : Sink) :
    s.run (value v) =
      (s, some (.sizeMismatch (.tooSmall (FixedWidth.width W) Reading.streamWidth))) := by
  rw [value, if_neg (Nat.not_le_of_lt wide)]
  rfl

end Writing

namespace ScalarType

/-- The next value of a type, together with the type. -/
def reading (t : ScalarType) : Reading Scalar :=
  (Reading.value t.Value).bind fun v => .done ⟨t, v⟩

theorem width_le_streamWidth (t : ScalarType) : FixedWidth.width t.Value ≤ Reading.streamWidth := by
  cases t <;> decide

end ScalarType

namespace Scalar

def writing (s : Scalar) : Writing := .value s.value

def form (s : Scalar) : List UInt8 := FixedWidth.encode s.value

theorem run_reading (s : Scalar) (rest : List UInt8) :
    s.type.reading.run (s.form ++ rest) = ⟨.ok s, s.form.length, rest⟩ := by
  have reads : s.type.reading.Reads s.form s :=
    (Reading.reads_value_bind_iff s.type.width_le_streamWidth).mpr
      ⟨s.value, [], (List.append_nil _).symm, .done s⟩
  exact Reading.run_eq_ok_iff.mpr ⟨s.form, reads, rfl, rfl⟩

theorem writing_eq (s : Scalar) : s.writing = .bytes s.form := by
  rw [writing, Writing.value, if_pos s.type.width_le_streamWidth, form]

theorem runEach_writing (values : List Scalar) (p : List UInt8) :
    (Sink.grown p).runEach (values.map writing) =
      (Sink.grown (p ++ values.flatMap form), values.map fun _ => none) := by
  induction values generalizing p with
  | nil => simp [Sink.runEach]
  | cons s values ih =>
    simp [Sink.runEach, writing_eq, Sink.run_grown, Writing.bytes, ih]

theorem runEach_reading (values : List Scalar) (rest : List UInt8) :
    (Reading.runEach (values.map (·.type.reading)) (values.flatMap form ++ rest)).map (·.result) =
        values.map .ok ∧
      Reading.leftBy (values.map (·.type.reading)) (values.flatMap form ++ rest) = rest := by
  induction values with
  | nil => exact ⟨rfl, rfl⟩
  | cons s values ih =>
    simp only [List.map_cons, List.flatMap_cons, List.append_assoc, Reading.runEach,
      Reading.leftBy, run_reading, ih, and_self]

/-- The values are written to a growing sink without a fault, and read back from there by their
types, with nothing left but what comes behind them. -/
structure ReadBack (values : List Scalar) (rest : List UInt8) (written : Sink) : Prop where
  carried_out : Sink.growing.runEach (values.map writing) = (written, values.map fun _ => none)
  same : (Reading.runEach (values.map (·.type.reading)) (written.contents ++ rest)).map
    (·.result) = values.map .ok
  left : Reading.leftBy (values.map (·.type.reading)) (written.contents ++ rest) = rest

/-- Scalars come back out of a stream as they went in, and a value of more than eight bytes, which
is refused, changes nothing for what comes before and behind it. -/
theorem scalars_streamed :
    (∀ (values : List Scalar) (rest : List UInt8), ∃ written, ReadBack values rest written) ∧
      ∀ {W : Type} [FixedWidth W], 8 < FixedWidth.width W →
        (∀ v : W, (Writing.value v).FailsAlone
          (.sizeMismatch (.tooSmall (FixedWidth.width W) 8))) ∧
        ∀ {α : Type} (next : W → Reading α), ((Reading.value W).bind next).FailsAlone
          (.sizeMismatch (.tooSmall (FixedWidth.width W) 8)) := by
  refine ⟨fun values rest => ?_, fun wide => ⟨fun v => ?_, fun next => ?_⟩⟩
  · have reading := runEach_reading values rest
    refine ⟨Sink.grown (values.flatMap form), runEach_writing values [], ?_, ?_⟩
    · rw [Sink.contents_grown, reading.1]
    · rw [Sink.contents_grown, reading.2]
  · exact Writing.failsAlone_of_run (Writing.run_value_of_wide wide v)
  · exact Reading.failsAlone_of_run (Reading.run_value_bind_of_wide wide next)

/-- A number of sixteen bytes. -/
structure Binary128 where
  bits : BitVec 128

instance : FixedWidth Binary128 := ⟨16, (·.bits), .mk⟩

theorem scalars_streamed_aroundBinary128 :
    8 < FixedWidth.width Binary128 ∧
      Sink.growing.runEach [writing ⟨.i16, -2⟩, .value (Binary128.mk 7), writing ⟨.u8, 5⟩] =
        (Sink.grown [0xFF, 0xFE, 5],
          [none, some (.sizeMismatch (.tooSmall 16 8)), none]) ∧
      (Reading.runEach [ScalarType.reading .i16,
          (Reading.value Binary128).bind fun _ => .refuse .truncated, ScalarType.reading .u8]
        [0xFF, 0xFE, 5]).map (·.result) =
        [.ok ⟨.i16, -2⟩, .error (.sizeMismatch (.tooSmall 16 8)), .ok ⟨.u8, 5⟩] := by
  have wide : 8 < FixedWidth.width Binary128 := by decide
  have written := (scalars_streamed.2 wide).1 (Binary128.mk 7) [writing ⟨.i16, -2⟩]
    [writing ⟨.u8, 5⟩] Sink.growing
  have read := (scalars_streamed.2 wide).2 (fun _ => Reading.refuse .truncated)
    [ScalarType.reading .i16] [ScalarType.reading .u8] [0xFF, 0xFE, 5]
  exact ⟨wide, written, congrArg (List.map (·.result)) read.1⟩

end Scalar

end ClassFormat
