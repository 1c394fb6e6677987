import ClassFormat.Proofs.Pool.Runs
import ClassFormat.Proofs.Validation.Verdict
import Mathlib.Logic.Relation

/-!
Where the references of a class file lead once validation finds nothing. Every check looks at one
reference; together they let all names be looked up and every chain of references end at a string
after at most three steps. Main statement: `navigable_of_validate`.
-/
namespace ClassFormat

/-- A reference by index with the kinds of which the constant there must have one. -/
structure Link where
  index : PoolIndex
  kinds : List ConstantKind
  deriving DecidableEq, Repr

/-- All references of a constant, those of method handles among them. -/
def Constant.links (v : Version) : Constant → List Link
  | methodHandle kind target => [⟨target, Rules.permittedReferents kind v⟩]
  | c => c.references.map fun r => ⟨r.index, [r.expected]⟩

/-- How many references can follow one another from a constant of a kind. -/
def ConstantKind.depth : ConstantKind → Nat
  | utf8 | integer | float | long | double => 0
  | classRef | stringRef | nameAndType | methodType | moduleRef | packageRef => 1
  | fieldRef | methodRef | interfaceMethodRef | dynamic | invokeDynamic => 2
  | methodHandle => 3

theorem ConstantKind.depth_le (kind : ConstantKind) : kind.depth ≤ 3 := by
  cases kind <;> decide

namespace Pool

/-- A reference leads to a constant of a required kind, and if that has no references of its own,
to a string. -/
def Resolves (v : Version) (p : Pool) (link : Link) : Prop :=
  ∃ next, p.get link.index = .ok next ∧ next.kind ∈ link.kinds ∧
    (next.links v = [] → next.kind = .utf8)

/-- References that follow one another from a constant on; the last may lead nowhere. -/
inductive Chain (v : Version) (p : Pool) : Constant → List Link → Prop where
  | one {k : Constant} {link : Link} : link ∈ k.links v → Chain v p k [link]
  | step {k next : Constant} {link : Link} {links : List Link} : link ∈ k.links v →
      p.get link.index = .ok next → Chain v p next links → Chain v p k (link :: links)

/-- The constant with the first index refers to the second index. -/
def Leads (v : Version) (p : Pool) (i j : PoolIndex) : Prop :=
  ∃ k, p.get i = .ok k ∧ ∃ link ∈ k.links v, link.index = j

def Linked (v : Version) (p : Pool) : Prop := ∀ index k, p.get index = .ok k → k.Linked v p

end Pool

namespace Constant

variable {v : Version} {p : Pool} {k : Constant} {link : Link}

theorem mem_links_iff : link ∈ k.links v ↔
    (∃ kind target, k = .methodHandle kind target ∧
      link = ⟨target, Rules.permittedReferents kind v⟩) ∨
    ∃ r ∈ k.references, link = ⟨r.index, [r.expected]⟩ := by
  cases k <;> simp [links, references]

theorem links_eq_nil_iff : k.links v = [] ↔ k.kind.depth = 0 := by
  cases k <;> simp [links, references, kind, ConstantKind.depth]

theorem depth_of_reference {r : Reference} (member : r ∈ k.references) :
    r.expected.depth < k.kind.depth ∧ (r.expected.depth = 0 → r.expected = .utf8) := by
  revert r
  cases k <;> simp [references, kind, ConstantKind.depth]

theorem Linked.reference (linked : k.Linked v p) {r : Reference} (member : r ∈ k.references) :
    p.Holds r.index r.expected := by
  cases k with
  | utf8 | integer | float | long | double | methodHandle => cases member
  | _ =>
    revert r
    simpa [references, Linked] using linked

/-- References go from deeper constants to less deep ones, and never to numbers. -/
theorem depth_of_link (member : link ∈ k.links v) {found : ConstantKind}
    (required : found ∈ link.kinds) :
    found.depth < k.kind.depth ∧ (found.depth = 0 → found = .utf8) := by
  rcases mem_links_iff.mp member with ⟨kind, target, rfl, rfl⟩ | ⟨r, listed, rfl⟩
  · have members : ∀ member ∈ [ConstantKind.fieldRef, .methodRef, .interfaceMethodRef],
        member.depth < ConstantKind.methodHandle.depth ∧ (member.depth = 0 → member = .utf8) := by
      decide
    exact members found (Rules.isMember_of_permitted required)
  · cases List.mem_singleton.mp required
    exact depth_of_reference listed

theorem Linked.resolves (linked : k.Linked v p) (member : link ∈ k.links v) :
    p.Resolves v link := by
  have target : ∃ next, p.get link.index = .ok next ∧ next.kind ∈ link.kinds := by
    rcases mem_links_iff.mp member with ⟨kind, target, rfl, rfl⟩ | ⟨r, listed, rfl⟩
    · obtain ⟨next, found, permitted, -⟩ := linked
      exact ⟨next, found, permitted⟩
    · obtain ⟨next, found, same⟩ := linked.reference listed
      exact ⟨next, found, List.mem_singleton.mpr same⟩
  obtain ⟨next, found, required⟩ := target
  refine ⟨next, found, required, fun final => ?_⟩
  exact (depth_of_link member required).2 (links_eq_nil_iff.mp final)

end Constant

namespace Pool

variable {v : Version} {p : Pool}

/-- A chain is no longer than its first constant is deep, and none of its references is broken. -/
theorem Linked.chain (linked : p.Linked v) {k : Constant} {links : List Link}
    (first : k.Linked v p) (chain : Chain v p k links) :
    links.length ≤ k.kind.depth ∧ ∀ link ∈ links, p.Resolves v link := by
  induction chain with
  | one member =>
    have resolves := first.resolves member
    obtain ⟨next, -, required, -⟩ := resolves
    have deeper := (Constant.depth_of_link member required).1
    refine ⟨Nat.succ_le_of_lt (Nat.zero_lt_of_lt deeper), ?_⟩
    intro link only
    exact List.mem_singleton.mp only ▸ first.resolves member
  | @step k next link links member found _ ih =>
    obtain ⟨length, resolves⟩ := ih (linked _ _ found)
    obtain ⟨next', found', required, -⟩ := first.resolves member
    cases found.symm.trans found'
    have deeper := (Constant.depth_of_link member required).1
    refine ⟨Nat.succ_le_of_lt (Nat.lt_of_le_of_lt length deeper), ?_⟩
    intro other listed
    rcases List.mem_cons.mp listed with rfl | later
    · exact first.resolves member
    · exact resolves other later

theorem Linked.leads (linked : p.Linked v) {i j : PoolIndex}
    (leads : Relation.TransGen (Leads v p) i j) :
    ∃ k next, p.get i = .ok k ∧ p.get j = .ok next ∧ next.kind.depth < k.kind.depth := by
  have edge {i j : PoolIndex} (leads : Leads v p i j) :
      ∃ k next, p.get i = .ok k ∧ p.get j = .ok next ∧ next.kind.depth < k.kind.depth := by
    obtain ⟨k, found, link, member, rfl⟩ := leads
    obtain ⟨next, found', required, -⟩ := (linked _ _ found).resolves member
    exact ⟨k, next, found, found', (Constant.depth_of_link member required).1⟩
  induction leads with
  | single leads => exact edge leads
  | tail _ leads ih =>
    obtain ⟨k, middle, found, found', deeper⟩ := ih
    obtain ⟨middle', next, found'', target, deeper'⟩ := edge leads
    cases found'.symm.trans found''
    exact ⟨k, next, found, target, Nat.lt_trans deeper' deeper⟩

theorem Linked.acyclic (linked : p.Linked v) (i : PoolIndex) :
    ¬Relation.TransGen (Leads v p) i i := by
  intro cycle
  obtain ⟨k, next, found, found', deeper⟩ := linked.leads cycle
  cases found.symm.trans found'
  exact Nat.lt_irrefl _ deeper

theorem holds_utf8_iff {index : PoolIndex} :
    p.Holds index .utf8 ↔ ∃ s, p.string index = .ok s := by
  simp only [string_eq_ok_iff, Holds]
  constructor
  · rintro ⟨c, found, same⟩
    cases c with
    | utf8 s => exact ⟨s, found⟩
    | _ => cases same
  · rintro ⟨s, found⟩
    exact ⟨.utf8 s, found, rfl⟩

theorem Linked.className (linked : p.Linked v) {index : PoolIndex}
    (held : p.Holds index .classRef) : ∃ s, p.className index = .ok s := by
  obtain ⟨c, found, same⟩ := held
  cases c with
  | classRef name =>
    obtain ⟨s, string⟩ := holds_utf8_iff.mp (linked _ _ found)
    exact ⟨s, className_eq_ok_iff.mpr ⟨name, found, string⟩⟩
  | _ => cases same

end Pool

namespace ClassFile

/-- All that a class file names by index has a name, and its references end at strings. -/
structure Navigable (c : ClassFile) : Prop where
  thisClassName : ∃ name, c.thisClassName = .ok name
  superClassName : ∃ name, c.superClassName = .ok name
  rootOrModule : c.superClassName = .ok none →
    c.isModule = true ∨ c.thisClassName = .ok (.text objectName)
  interfaceNames : ∀ index ∈ c.interfaces, ∃ name, c.pool.className index = .ok name
  fieldNames : ∀ f ∈ c.fields, (∃ name, f.nameIn c.pool = .ok name) ∧
    ∃ descriptor, f.descriptorIn c.pool = .ok descriptor
  methodNames : ∀ m ∈ c.methods, (∃ name, m.nameIn c.pool = .ok name) ∧
    ∃ descriptor, m.descriptorIn c.pool = .ok descriptor
  /-- No chain takes more than three steps, each of them leads to a constant of a required kind,
  and one that goes no further leads to a string. -/
  chains : ∀ index k, c.pool.get index = .ok k → ∀ links, c.pool.Chain c.version k links →
    links.length ≤ 3 ∧ ∀ link ∈ links, c.pool.Resolves c.version link
  acyclic : ∀ index, ¬Relation.TransGen (c.pool.Leads c.version) index index

variable {c : ClassFile}

theorem linked_of_validate (clean : c.validate = []) : c.pool.Linked c.version := by
  rw [validate_eq_nil_iff_parts] at clean
  obtain ⟨⟨⟨⟨-, entries⟩, -⟩, -⟩, -⟩ := clean
  intro index k found
  exact (entries _ (Pool.mem_entries_of_get found)).2

theorem thisClassName_of_hasClass {value : String} (named : c.pool.HasClass c.thisClass value) :
    c.thisClassName = .ok (.text value) := by
  obtain ⟨name, found, text⟩ := named
  exact Pool.className_eq_ok_iff.mpr ⟨name, found, Pool.string_eq_ok_iff.mpr text⟩

theorem superClassName_eq_none_iff : c.superClassName = .ok none ↔ c.superClass = 0 := by
  rw [superClassName]
  split
  · rename_i zero
    exact iff_of_true rfl zero
  · rename_i other
    split
    · exact iff_of_false (by simp) other
    · exact iff_of_false (by simp) other

theorem superClass_ne_zero (layout : c.pool.WellFormed)
    (held : c.pool.Holds c.superClass .classRef) : c.superClass ≠ 0 := by
  intro zero
  obtain ⟨k, found, -⟩ := held
  rw [zero, Pool.get_eq_ok_iff] at found
  cases layout.first_gap.symm.trans found

/-- In a class file without violations every name can be looked up, and every chain of references
resolves step by step to a string, without cycles. -/
theorem navigable_of_validate (built : c.pool.Reachable) (clean : c.validate = []) :
    c.Navigable := by
  have linked := linked_of_validate clean
  rw [validate_eq_nil_iff_parts, Validation.headerBreaches_eq_nil_iff] at clean
  obtain ⟨⟨⟨-, ⟨thisClass, superClass, interfaces⟩, -⟩, fields⟩, methods⟩ := clean
  constructor
  · exact linked.className thisClass
  · by_cases zero : c.superClass = 0
    · exact ⟨none, superClassName_eq_none_iff.mpr zero⟩
    · have held : c.pool.Holds c.superClass .classRef := superClass.resolve_right fun h => zero h.1
      obtain ⟨name, found⟩ := linked.className held
      exact ⟨some name, by rw [superClassName, if_neg zero, found]⟩
  · intro none
    have zero := superClassName_eq_none_iff.mp none
    rcases superClass with held | ⟨-, object | isModule⟩
    · exact absurd zero (superClass_ne_zero built.wellFormed held)
    · exact .inr (thisClassName_of_hasClass object)
    · exact .inl (Flags.contains_iff.mpr isModule)
  · intro index member
    exact linked.className (interfaces index member)
  · intro f member
    have valid := fields f member
    exact ⟨Pool.holds_utf8_iff.mp valid.name, Pool.holds_utf8_iff.mp valid.descriptor⟩
  · intro m member
    have valid := methods m member
    exact ⟨Pool.holds_utf8_iff.mp valid.name, Pool.holds_utf8_iff.mp valid.descriptor⟩
  · intro index k found links chain
    obtain ⟨length, resolves⟩ := linked.chain (linked index k found) chain
    exact ⟨Nat.le_trans length k.kind.depth_le, resolves⟩
  · exact linked.acyclic

/-- A method handle, the method it calls, the name with its type and the text of the name. -/
theorem navigable_callable :
    callable.Navigable ∧ callable.pool.Chain callable.version (.methodHandle .invokeInterface 8)
      [⟨8, [.interfaceMethodRef]⟩, ⟨7, [.nameAndType]⟩, ⟨5, [.utf8]⟩] := by
  have built : callable.pool.Reachable :=
    Pool.reachable_iff_wellFormed.mpr (Pool.wellFormed_iff.mpr ⟨_, rfl, by decide⟩)
  have clean : callable.validate = [] := rfl
  refine ⟨navigable_of_validate built clean, ?_⟩
  exact .step (by decide) rfl (.step (by decide) rfl (.one (by decide)))

end ClassFile

end ClassFormat
