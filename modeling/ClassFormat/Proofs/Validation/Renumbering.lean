import ClassFormat.Proofs.Validation.Recast
import Mathlib.Data.List.Perm.Lattice
import Mathlib.Logic.Equiv.Basic

/-!
Class files whose constants are moved to other indices. What is reported stays the same, under the
new indices; only the constants are visited in another order. Main statement: `validate_renumbered`.
-/
namespace ClassFormat

def Location.isPoolEntry : Location → Bool
  | poolEntry _ => true
  | classFile | field _ | method _ => false

namespace Recasting

/-- Indices are renamed, and nothing else is changed. -/
def renumbering (s : PoolIndex → PoolIndex) : Recasting where
  index := s
  string := id
  integer := id
  float := id
  long := id
  double := id
  bootstrap := id
  flags _ := id
  attributes := id

theorem lawful_renumbering {s : PoolIndex → PoolIndex} (injective : Function.Injective s)
    (zero : s 0 = 0) : (renumbering s).Lawful where
  text _ := rfl
  flags _ a := Flags.SameKnown.refl a
  zero index := by
    constructor
    · intro renamed
      exact injective (renamed.trans zero.symm)
    · rintro rfl
      exact zero

end Recasting

namespace Pool

variable {r : Recasting} {p q : Pool}

theorem nodup_entries (fits : p.slots.size ≤ capacity) : p.entries.Nodup :=
  (entries_ascending fits).imp fun less same => UInt16.ne_of_lt less (congrArg Prod.fst same)

/-- By a bijection of the indices a pool becomes another if and only if the entries of the other
are its own ones, changed. -/
theorem becomes_iff_perm (bijective : Function.Bijective r.index)
    (fits : p.slots.size ≤ capacity) (fits' : q.slots.size ≤ capacity) :
    p.Becomes r q ↔ q.entries.Perm (p.entries.map fun e => (r.index e.1, r.constant e.2)) := by
  have nodup : (p.entries.map fun e => (r.index e.1, r.constant e.2)).Nodup := by
    refine List.pairwise_map.mpr ((entries_ascending fits).imp fun less same => ?_)
    exact UInt16.ne_of_lt less (bijective.1 (congrArg Prod.fst same))
  rw [List.perm_ext_iff_of_nodup (nodup_entries fits') nodup, Prod.forall]
  simp only [mem_entries_iff fits', List.mem_map, Prod.mk.injEq, Prod.exists, mem_entries_iff fits]
  constructor
  · intro h index k
    constructor
    · intro found
      -- Each index of the other pool comes of one, under which something must be found.
      obtain ⟨index, rfl⟩ := bijective.2 index
      cases found' : p.get index with
      | ok k' =>
        rw [h.found index k' found'] at found
        exact ⟨index, k', found', rfl, Except.ok.inj found⟩
      | error e =>
        obtain ⟨e', missing⟩ := h.missing index e found'
        rw [missing] at found
        cases found
    · rintro ⟨index, k, found, rfl, rfl⟩
      exact h.found index k found
  · intro same
    constructor
    · intro index k found
      exact (same _ _).mpr ⟨index, k, found, rfl, rfl⟩
    · intro index e missing
      have absent : ∀ k, q.get (r.index index) ≠ .ok k := by
        intro k found
        obtain ⟨index', k', found', renamed, _⟩ := (same _ _).mp found
        rw [bijective.1 renamed, missing] at found'
        cases found'
      exact ⟨_, get_eq_error absent⟩

end Pool

namespace ClassFile

open Validation

/-- The constants of the first class file stand at other indices in the second one, and all indices
into the pool but those of attributes are renamed to match. -/
structure Renumbered (s : PoolIndex → PoolIndex) (c d : ClassFile) : Prop where
  pool : c.pool.Becomes (.renumbering s) d.pool
  others : d = (Recasting.renumbering s).classFile c d.pool

variable {c d : ClassFile}

theorem filter_entries (c : ClassFile) :
    c.validate.filter (·.location.isPoolEntry) = entryViolations c.version c.pool := by
  rw [filter_location_validate]
  simp [Location.isPoolEntry, entryViolations, blocks]

theorem filter_others (c : ClassFile) :
    c.validate.filter (!·.location.isPoolEntry) =
      located .classFile (versionBreaches c.version) ++ c.behindPool := by
  rw [c.filter_location_validate (!·.isPoolEntry)]
  simp [Location.isPoolEntry, behindPool, blocks]

theorem Renumbered.filter_others {s : PoolIndex → PoolIndex} (h : c.Renumbered s d)
    (lawful : (Recasting.renumbering s).Lawful) :
    d.validate.filter (!·.location.isPoolEntry) =
      (c.validate.filter (!·.location.isPoolEntry)).map (·.renamed s) := by
  have version : (versionBreaches c.version).map (·.renamed s) = versionBreaches c.version := by
    unfold versionBreaches
    split
    · rfl
    · rfl
  have rear := Recasting.behindPool_classFile h.pool lawful
  rw [ClassFile.filter_others, ClassFile.filter_others, List.map_append, map_renamed_located,
    version, h.others]
  exact congrArg _ rear

/-- If the constants of a class file are moved to other indices, all violations stay, in the order
of the places they have now, and name the new indices. -/
theorem validate_renumbered {s : PoolIndex → PoolIndex} (bijective : Function.Bijective s)
    (zero : s 0 = 0) (layout : c.pool.WellFormed) (layout' : d.pool.WellFormed)
    (h : c.Renumbered s d) :
    d.validate.filter (!·.location.isPoolEntry) =
      (c.validate.filter (!·.location.isPoolEntry)).map (·.renamed s) ∧
    (∀ index, d.validate.filter (·.location = .poolEntry (s index)) =
      (c.validate.filter (·.location = .poolEntry index)).map (·.renamed s)) ∧
    (d.validate.filter (·.location.isPoolEntry)).Perm
      ((c.validate.filter (·.location.isPoolEntry)).map (·.renamed s)) := by
  have fits := layout.size_le
  have fits' := layout'.size_le
  have lawful := Recasting.lawful_renumbering bijective.1 zero
  have version : d.version = c.version := by
    rw [h.others]
    rfl
  refine ⟨h.filter_others lawful, ?_, ?_⟩
  · intro index
    cases found : c.pool.get index with
    | ok k =>
      have block := filter_poolEntry fits' (h.pool.found index k found)
      rw [version, constantBreaches_becomes h.pool lawful] at block
      rw [filter_poolEntry fits found, map_renamed_located]
      exact block
    | error e =>
      obtain ⟨e', missing⟩ := h.pool.missing index e found
      rw [filter_poolEntry_of_missing fits found]
      exact filter_poolEntry_of_missing fits' missing
  · have entries := (Pool.becomes_iff_perm bijective fits fits').mp h.pool
    have renamed := map_renamed_entries (v := c.version) h.pool lawful
    rw [filter_entries, filter_entries, version]
    exact (entries.flatMap_right _).trans (.of_eq renamed)

/-- References into nothing and to constants of the wrong kinds. -/
def misdirected : ClassFile where
  version := .jdk 8
  pool := .ofConstants [.utf8 (.text "A"), .long 5, .classRef 1, .classRef 9, .fieldRef 2 5]
  flags := ∅
  thisClass := 1
  superClass := 4
  interfaces := []
  fields := []
  methods := [⟨∅, 2, 1, []⟩]
  attributes := []

/-- The same with the first two constants in the other order. -/
def misdirectedMoved : ClassFile :=
  { misdirected with
    pool := .ofConstants [.long 5, .utf8 (.text "A"), .classRef 3, .classRef 9, .fieldRef 1 5]
    thisClass := 3
    methods := [⟨∅, 1, 3, []⟩] }

/-- The second index of the number, which is wide, goes with the first. -/
def moving : Equiv.Perm PoolIndex := (Equiv.swap 1 2).trans (Equiv.swap 2 3)

theorem renumbered_misdirectedMoved :
    misdirected.pool.WellFormed ∧ misdirectedMoved.pool.WellFormed ∧
      misdirected.Renumbered moving misdirectedMoved := by
  have layout : misdirected.pool.WellFormed := Pool.wellFormed_iff.mpr ⟨_, rfl, by decide⟩
  have layout' : misdirectedMoved.pool.WellFormed := Pool.wellFormed_iff.mpr ⟨_, rfl, by decide⟩
  have moved := Pool.becomes_iff_perm (r := .renumbering moving) moving.bijective layout.size_le
    layout'.size_le
  exact ⟨layout, layout', { pool := moved.mpr (by decide), others := rfl }⟩

theorem validate_misdirectedMoved :
    misdirectedMoved.validate.filter (!·.location.isPoolEntry) =
      [⟨.classFile, .badReference .thisClass (.kindMismatch 3 .classRef .utf8)⟩,
        ⟨.method 0, .badReference .name (.kindMismatch 1 .utf8 .long)⟩] ∧
    misdirectedMoved.validate.filter (·.location = .poolEntry 6) =
      [⟨.poolEntry 6, .badReference .owner (.kindMismatch 1 .classRef .long)⟩,
        ⟨.poolEntry 6, .badReference .nameAndType (.kindMismatch 5 .nameAndType .classRef)⟩] := by
  obtain ⟨layout, layout', renumbered⟩ := renumbered_misdirectedMoved
  obtain ⟨others, entry, _⟩ := validate_renumbered moving.bijective rfl layout layout' renumbered
  exact ⟨others.trans rfl, (entry 6).trans rfl⟩

end ClassFile

end ClassFormat
