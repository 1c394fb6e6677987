import ClassFormat.Proofs.Pool.Mapped
import ClassFormat.Proofs.Validation.Recast

/-!
What validation looks at. The values of numbers, bytes that are no text, positions in the table of
bootstrap methods, attributes and flags without a name are never seen in a report. Main statement:
`validate_eq_of_outline_eq`.
-/
namespace ClassFormat

def JavaString.outline : JavaString → JavaString
  | text value => text value
  | raw _ => raw []

namespace Recasting

/-- Sets to zero and empties what no rule looks at. -/
def clearing : Recasting where
  index := id
  string := JavaString.outline
  integer _ := 0
  float _ := ⟨0⟩
  long _ := 0
  double _ := ⟨0⟩
  bootstrap _ := 0
  flags _ a := a ∩ Flags.known
  attributes _ := []

theorem lawful_clearing : clearing.Lawful where
  text s := by
    cases s with
    | text value => rfl
    | raw bytes => rfl
  flags _ a := a.sameKnown_inter
  zero _ := Iff.rfl

end Recasting

def Pool.outline (p : Pool) : Pool := p.mapped Recasting.clearing.constant

/-- What is left of a class file without all that no rule looks at. -/
def ClassFile.outline (c : ClassFile) : ClassFile := Recasting.clearing.classFile c c.pool.outline

theorem Pool.outline_ofConstants (cs : List Constant) :
    (ofConstants cs).outline = ofConstants (cs.map Recasting.clearing.constant) := by
  apply mapped_ofConstants
  intro k
  rw [Constant.isWide, Recasting.kind_constant, Constant.isWide]

theorem Pool.becomes_outline (p : Pool) : p.Becomes .clearing p.outline where
  found index k found := get_mapped_iff.mpr ⟨k, found, rfl⟩
  missing index e missing := by
    have absent : ∀ k, p.outline.get index ≠ .ok k := by
      intro k found
      obtain ⟨k', found', _⟩ := get_mapped_iff.mp found
      rw [missing] at found'
      cases found'
    exact ⟨_, get_eq_error absent⟩

theorem PoolError.renamed_id (e : PoolError) : e.renamed id = e := by
  cases e <;> rfl

theorem Breach.renamed_id (breach : Breach) : breach.renamed id = breach := by
  cases breach with
  | badReference role error => rw [renamed, error.renamed_id]
  | _ => rfl

theorem Location.renamed_id (location : Location) : location.renamed id = location := by
  cases location <;> rfl

theorem map_violation_renamed_id (violations : List Violation) :
    violations.map (·.renamed id) = violations := by
  have same : Violation.renamed id = id := by
    funext violation
    rw [Violation.renamed, violation.location.renamed_id, violation.breach.renamed_id]
    rfl
  rw [same, List.map_id]

namespace ClassFile

open Validation

variable {c d : ClassFile}

theorem validate_outline (c : ClassFile) : c.outline.validate = c.validate := by
  have pool : c.pool.Becomes .clearing c.pool.outline := c.pool.becomes_outline
  have lawful := Recasting.lawful_clearing
  have entries : entryViolations c.version c.pool.outline =
      (entryViolations c.version c.pool).map (·.renamed id) := by
    rw [entryViolations_eq_blocks, Pool.outline, Pool.entries_mapped]
    exact map_renamed_entries pool lawful
  have rear := Recasting.behindPool_classFile pool lawful
  rw [validate_eq_behindPool, validate_eq_behindPool, outline, rear]
  show located .classFile (versionBreaches c.version) ++ entryViolations c.version c.pool.outline ++
    _ = _
  rw [entries, map_violation_renamed_id]
  exact congrArg _ (map_violation_renamed_id c.behindPool)

/-- Of class files with the same outline, the same violations are reported. -/
theorem validate_eq_of_outline_eq (same : c.outline = d.outline) : c.validate = d.validate := by
  rw [← c.validate_outline, ← d.validate_outline, same]

/-- A constant, the header and the only method are at fault. -/
def faulty : ClassFile where
  version := .jdk 8
  pool := .ofConstants [.utf8 (.text "A"), .classRef 1, .utf8 (.raw [0xC0]), .integer 0,
    .dynamic 0 4]
  flags := ClassFlags.accFinal ∪ ClassFlags.accAbstract
  thisClass := 4
  superClass := 2
  interfaces := []
  fields := []
  methods := [⟨MethodFlags.accPublic ∪ MethodFlags.accPrivate, 3, 1, []⟩]
  attributes := []

/-- The same with other values, bytes, attributes and flags without a name. -/
def faultyLaden : ClassFile :=
  { faulty with
    pool := .ofConstants [.utf8 (.text "A"), .classRef 1, .utf8 (.raw [0xFF]), .integer 7,
      .dynamic 5 4]
    flags := faulty.flags ∪ ⟨0x0802⟩
    methods := [⟨MethodFlags.accPublic ∪ MethodFlags.accPrivate ∪ ⟨0xE200⟩, 3, 1, [⟨1, [0x2A]⟩]⟩]
    attributes := [⟨9, []⟩] }

theorem validate_faultyLaden :
    faultyLaden.outline = faulty.outline ∧ faultyLaden.validate =
      [⟨.poolEntry 5, .constantKindUnavailable .dynamic (.jdk 11)⟩,
        ⟨.poolEntry 5, .badReference .nameAndType (.kindMismatch 4 .nameAndType .integer)⟩,
        ⟨.classFile, .badReference .thisClass (.kindMismatch 4 .classRef .integer)⟩,
        ⟨.classFile, .mutuallyExclusive ⟨.classFile, faulty.flags⟩⟩,
        ⟨.method 0,
          .mutuallyExclusive ⟨.method, MethodFlags.accPublic ∪ MethodFlags.accPrivate⟩⟩] := by
  have same : faultyLaden.outline = faulty.outline := by
    rw [outline, outline, faultyLaden, faulty, Pool.outline_ofConstants, Pool.outline_ofConstants]
    decide
  refine ⟨same, ?_⟩
  rw [validate_eq_of_outline_eq same]
  rfl

end ClassFile

end ClassFormat
