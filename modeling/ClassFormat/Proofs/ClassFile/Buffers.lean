import ClassFormat.Proofs.Bytes.Sinks
import ClassFormat.Proofs.ClassFile.Lengths

/-!
Class files and their parts written to buffers of fixed capacity. Main statement:
`truncates_of_every_part`.
-/
namespace ClassFormat

/-- A buffer of zeros ends up with what a growing sink takes in, cut off where the buffer ends. If
that is cut short the writing fails for want of room, even where it would have failed later for a
length that does not fit; otherwise it fares as it does on the growing sink. -/
theorem truncates_of_every_part :
    (∀ c : ClassFile, c.writing.Truncates) ∧ (∀ p : Pool, p.writing.Truncates) ∧
      (∀ f : Field, f.writing.Truncates) ∧ (∀ m : Method, m.writing.Truncates) ∧
      (∀ a : Attribute, a.writing.Truncates) ∧
      ∀ attributes : List Attribute, (Attribute.tableWriting attributes).Truncates := by
  refine ⟨?_, ?_, ?_, ?_, ?_, ?_⟩
  · intro c
    exact c.stoppedUnless_parts.truncates
  · intro p
    exact p.stoppedUnless_fits.truncates
  · intro f
    exact (Member.stoppedUnless_fits f).truncates
  · intro m
    exact (Member.stoppedUnless_fits m).truncates
  · intro a
    exact a.stoppedUnless_fits.truncates
  · intro attributes
    exact (Attribute.stoppedUnless_tableFits attributes).truncates

/-- The minor version takes two bytes, of which only the first fits. -/
example : (Sink.bounded 5).run ClassFile.peculiar.writing =
    (⟨#[0xCA, 0xFE, 0xBA, 0xBE, 0x00], some 0⟩, some .writeFail) := rfl

end ClassFormat
