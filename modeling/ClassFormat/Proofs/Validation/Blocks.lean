import ClassFormat.Proofs.Pool.WellFormed
import ClassFormat.Validation.Validate
import Mathlib.Data.List.Basic

/-!
Violations come in blocks, one for each place. `validate_eq_blocks` takes a report apart into its
blocks; all that is said about a part of a report goes back to it.
-/
namespace ClassFormat

namespace Validation

variable {α : Type} {location : Location}

/-- What is found in the items of a list, each at its own place. -/
def blocks (place : α → Location) (check : α → List Breach) (items : List α) : List Violation :=
  items.flatMap fun x => located (place x) (check x)

theorem blocks_cons (place : α → Location) (check : α → List Breach) (x : α) (items : List α) :
    blocks place check (x :: items) = located (place x) (check x) ++ blocks place check items :=
  List.flatMap_cons

theorem blocks_congr {place : α → Location} {check check' : α → List Breach} {items : List α}
    (same : ∀ x ∈ items, check x = check' x) :
    blocks place check items = blocks place check' items :=
  List.flatMap_congr fun x member => congrArg (located (place x)) (same x member)

@[simp] theorem located_eq_nil_iff {breaches : List Breach} :
    located location breaches = [] ↔ breaches = [] :=
  List.map_eq_nil_iff

theorem blocks_eq_nil_iff {place : α → Location} {check : α → List Breach} {items : List α} :
    blocks place check items = [] ↔ ∀ x ∈ items, check x = [] := by
  rw [blocks, List.flatMap_eq_nil_iff]
  simp only [located_eq_nil_iff]

theorem blocks_numbered_eq_nil_iff {place : Nat → Location} {check : α → List Breach}
    {xs : List α} :
    blocks (fun e => place e.2) (fun e => check e.1) xs.zipIdx = [] ↔ ∀ x ∈ xs, check x = [] := by
  rw [blocks_eq_nil_iff]
  constructor
  · intro clean x member
    obtain ⟨i, inside, rfl⟩ := List.mem_iff_getElem.mp member
    exact clean (xs[i], i) (List.mk_mem_zipIdx_iff_getElem?.mpr (List.getElem?_eq_getElem inside))
  · intro clean e member
    exact clean e.1 (List.fst_mem_of_mem_zipIdx member)

theorem mem_located_iff {violation : Violation} {breaches : List Breach} :
    violation ∈ located location breaches ↔
      violation.location = location ∧ violation.breach ∈ breaches := by
  rw [located, List.mem_map]
  constructor
  · rintro ⟨breach, found, rfl⟩
    exact ⟨rfl, found⟩
  · rintro ⟨rfl, found⟩
    exact ⟨violation.breach, found, rfl⟩

theorem mem_blocks_iff {violation : Violation} {place : α → Location} {check : α → List Breach}
    {items : List α} : violation ∈ blocks place check items ↔
      ∃ x ∈ items, violation.location = place x ∧ violation.breach ∈ check x := by
  simp only [blocks, List.mem_flatMap, mem_located_iff]

@[simp] theorem map_breach_located (location : Location) (breaches : List Breach) :
    (located location breaches).map (·.breach) = breaches := by
  simp [located, Function.comp_def]

/-! Violations picked by what they are. -/

theorem filter_breach_located (keep : Breach → Bool) (location : Location)
    (breaches : List Breach) :
    (located location breaches).filter (fun v => keep v.breach) =
      located location (breaches.filter keep) :=
  List.filter_map

theorem filter_breach_blocks (keep : Breach → Bool) (place : α → Location)
    (check : α → List Breach) (items : List α) :
    (blocks place check items).filter (fun v => keep v.breach) =
      blocks place (fun x => (check x).filter keep) items := by
  unfold blocks
  rw [List.filter_flatMap]
  apply List.flatMap_congr
  intro x _
  exact filter_breach_located keep (place x) (check x)

/-! Violations picked by where they are. -/

theorem filter_located (keep : Location → Bool) (location : Location) (breaches : List Breach) :
    (located location breaches).filter (fun v => keep v.location) =
      if keep location then located location breaches else [] := by
  unfold located
  cases kept : keep location with
  | false => simp [List.filter_map, Function.comp_def, kept]
  | true => simp [List.filter_map, Function.comp_def, kept]

@[simp] theorem filter_located_eq (here there : Location) (breaches : List Breach) :
    (located here breaches).filter (·.location = there) =
      if here = there then located here breaches else [] := by
  have kept := filter_located (fun location => decide (location = there)) here breaches
  simpa using kept

theorem filter_blocks (keep : Location → Bool) (place : α → Location) (check : α → List Breach)
    (items : List α) :
    (blocks place check items).filter (fun v => keep v.location) =
      blocks place check (items.filter fun x => keep (place x)) := by
  induction items with
  | nil => rfl
  | cons x items ih =>
    rw [blocks_cons, List.filter_append, filter_located keep, ih, List.filter_cons]
    split
    · rw [blocks_cons]
    · rw [List.nil_append]

theorem filter_blocks_of_absent {place : α → Location} {check : α → List Breach} {items : List α}
    (absent : ∀ x ∈ items, place x ≠ location) :
    (blocks place check items).filter (·.location = location) = [] := by
  have none : (items.filter fun x => decide (place x = location)) = [] :=
    List.filter_eq_nil_iff.mpr fun x member => decide_eq_true_iff.not.mpr (absent x member)
  rw [filter_blocks (fun place => decide (place = location)), none]
  rfl

/-- Where all items have places of their own, the block at such a place is what is found there. -/
theorem filter_blocks_of_mem (place : α → Location) (check : α → List Breach) {items : List α}
    (distinct : items.Pairwise fun x y => place x ≠ place y) {x : α} (member : x ∈ items) :
    (blocks place check items).filter (·.location = place x) = located (place x) (check x) := by
  induction distinct with
  | nil => cases member
  | @cons y items others _ ih =>
    rw [blocks_cons, List.filter_append, filter_located_eq]
    rcases List.mem_cons.mp member with rfl | later
    · have absent : ∀ y ∈ items, place y ≠ place x := fun y listed => (others y listed).symm
      rw [if_pos rfl, filter_blocks_of_absent absent, List.append_nil]
    · rw [if_neg (others x later), ih later, List.nil_append]

theorem filter_numbered {place : Nat → Location} (distinct : ∀ i j, place i = place j → i = j)
    (check : α → List Breach) {xs : List α} {i : Nat} {x : α} (found : xs[i]? = some x) :
    (blocks (fun e => place e.2) (fun e => check e.1) xs.zipIdx).filter (·.location = place i) =
      located (place i) (check x) := by
  have apart : xs.zipIdx.Pairwise fun a b => place a.2 ≠ place b.2 :=
    (Pool.zipIdx_ascending xs).imp fun less same => Nat.ne_of_lt less (distinct _ _ same)
  exact filter_blocks_of_mem (fun e : α × Nat => place e.2) (fun e => check e.1) apart
    (List.mk_mem_zipIdx_iff_getElem?.mpr found)

theorem entryViolations_eq_blocks (v : Version) (p : Pool) :
    entryViolations v p =
      blocks (fun e => .poolEntry e.1) (fun e => constantBreaches v p e.2) p.entries :=
  rfl

end Validation

namespace ClassFile

open Validation

theorem validate_eq_blocks (c : ClassFile) :
    c.validate = located .classFile (versionBreaches c.version) ++
      blocks (fun e => .poolEntry e.1) (fun e => constantBreaches c.version c.pool e.2)
        c.pool.entries ++
      located .classFile (headerBreaches c) ++
      blocks (fun e => .field e.2) (fun e => fieldBreaches c.setting e.1) c.fields.zipIdx ++
      blocks (fun e => .method e.2) (fun e => methodBreaches c.setting e.1) c.methods.zipIdx :=
  rfl

/-- The violations at some places, block by block. -/
theorem filter_location_validate (c : ClassFile) (keep : Location → Bool) :
    c.validate.filter (fun v => keep v.location) =
      (if keep .classFile then located .classFile (versionBreaches c.version) else []) ++
        blocks (fun e => .poolEntry e.1) (fun e => constantBreaches c.version c.pool e.2)
          (c.pool.entries.filter fun e => keep (.poolEntry e.1)) ++
        (if keep .classFile then located .classFile (headerBreaches c) else []) ++
        blocks (fun e => .field e.2) (fun e => fieldBreaches c.setting e.1)
          (c.fields.zipIdx.filter fun e => keep (.field e.2)) ++
        blocks (fun e => .method e.2) (fun e => methodBreaches c.setting e.1)
          (c.methods.zipIdx.filter fun e => keep (.method e.2)) := by
  rw [validate_eq_blocks]
  simp only [List.filter_append, filter_located keep, filter_blocks keep]

/-- The violations whose breaches are of some kind, block by block. -/
theorem filter_breach_validate (c : ClassFile) (keep : Breach → Bool) :
    c.validate.filter (fun v => keep v.breach) =
      located .classFile ((versionBreaches c.version).filter keep) ++
        blocks (fun e => .poolEntry e.1)
          (fun e => (constantBreaches c.version c.pool e.2).filter keep) c.pool.entries ++
        located .classFile ((headerBreaches c).filter keep) ++
        blocks (fun e => .field e.2) (fun e => (fieldBreaches c.setting e.1).filter keep)
          c.fields.zipIdx ++
        blocks (fun e => .method e.2) (fun e => (methodBreaches c.setting e.1).filter keep)
          c.methods.zipIdx := by
  rw [validate_eq_blocks]
  simp only [List.filter_append, filter_breach_located keep, filter_breach_blocks keep]

/-- What is reported behind the constants: the violations of the header and of the members. -/
def behindPool (c : ClassFile) : List Violation :=
  located .classFile (headerBreaches c) ++
    blocks (fun e => .field e.2) (fun e => fieldBreaches c.setting e.1) c.fields.zipIdx ++
    blocks (fun e => .method e.2) (fun e => methodBreaches c.setting e.1) c.methods.zipIdx

theorem validate_eq_behindPool (c : ClassFile) :
    c.validate = located .classFile (versionBreaches c.version) ++
      entryViolations c.version c.pool ++ c.behindPool := by
  rw [validate_eq_blocks, entryViolations_eq_blocks, behindPool, ← List.append_assoc,
    ← List.append_assoc]

end ClassFile

end ClassFormat
