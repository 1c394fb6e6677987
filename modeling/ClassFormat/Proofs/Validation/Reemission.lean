import ClassFormat.Proofs.ClassFile.RoundTrip
import ClassFormat.Proofs.Pool.Normalized
import ClassFormat.Proofs.Validation.Verdict

/-!
Validation of what is read back once a valid class file was written. Only names that are kept as
bytes can make a difference: they come back as text if they are the form of one, and the rules for
names look at text alone. Main statement: `validate_written_iff`.
-/
namespace ClassFormat

namespace Pool

variable {p : Pool} {index : PoolIndex}

/-- The string by which a constant refers to a member. -/
def MemberName (p : Pool) (s : JavaString) : Constant → Prop
  | .fieldRef _ nameType | .methodRef _ nameType | .interfaceMethodRef _ nameType =>
    ∃ name descriptor, p.get nameType = .ok (.nameAndType name descriptor) ∧
      p.get name = .ok (.utf8 s)
  | _ => False

theorem refersTo_iff {value : String} {c : Constant} :
    p.RefersTo value c ↔ p.MemberName (.text value) c := by
  cases c <;> rfl

theorem holds_normalized_iff {kind : ConstantKind} :
    p.normalized.Holds index kind ↔ p.Holds index kind := by
  rw [Holds, Holds]
  constructor
  · rintro ⟨_, found, rfl⟩
    obtain ⟨c, found', rfl⟩ := get_normalized_iff.mp found
    exact ⟨c, found', c.kind_normalized.symm⟩
  · rintro ⟨c, found, rfl⟩
    exact ⟨_, get_normalized_iff.mpr ⟨c, found, rfl⟩, c.kind_normalized⟩

theorem hasText_normalized_iff {value : String} :
    p.normalized.HasText index value ↔ ∃ s, p.get index = .ok (.utf8 s) ∧ s.Spells value := by
  rw [HasText, get_normalized_utf8_iff]
  simp only [JavaString.normalized_eq_text_iff]

theorem HasText.normalized {value : String} (h : p.HasText index value) :
    p.normalized.HasText index value :=
  hasText_normalized_iff.mpr ⟨.text value, h, rfl⟩

theorem HasClass.normalized {value : String} (h : p.HasClass index value) :
    p.normalized.HasClass index value := by
  obtain ⟨name, found, text⟩ := h
  exact ⟨name, (get_normalized_of_ne (by simp [Constant.kind])).mpr found, text.normalized⟩

theorem refersTo_normalized_iff {value : String} {c : Constant} :
    p.normalized.RefersTo value c.normalized ↔ ∃ s, p.MemberName s c ∧ s.Spells value := by
  have follow (nameType : PoolIndex) :
      (∃ name descriptor, p.normalized.get nameType = .ok (.nameAndType name descriptor) ∧
        p.normalized.HasText name value) ↔
      ∃ s, (∃ name descriptor, p.get nameType = .ok (.nameAndType name descriptor) ∧
        p.get name = .ok (.utf8 s)) ∧ s.Spells value := by
    have pair : ∀ name descriptor, (Constant.nameAndType name descriptor).kind ≠ .utf8 := by
      simp [Constant.kind]
    constructor
    · rintro ⟨name, descriptor, found, text⟩
      rw [get_normalized_of_ne (pair name descriptor)] at found
      obtain ⟨s, string, spells⟩ := hasText_normalized_iff.mp text
      exact ⟨s, ⟨name, descriptor, found, string⟩, spells⟩
    · rintro ⟨s, ⟨name, descriptor, found, string⟩, spells⟩
      rw [← get_normalized_of_ne (pair name descriptor)] at found
      exact ⟨name, descriptor, found, hasText_normalized_iff.mpr ⟨s, string, spells⟩⟩
  cases c with
  | fieldRef _ nameType | methodRef _ nameType | interfaceMethodRef _ nameType =>
    exact follow nameType
  | _ => simp [RefersTo, MemberName, Constant.normalized]

end Pool

variable {v : Version} {p : Pool}

/-- The handle may call all that the name of its target spells. -/
def ReferenceKind.MayCallSpelled (kind : ReferenceKind) (p : Pool) (target : PoolIndex) : Prop :=
  kind.isFieldAccess = false → ∀ c s name, p.get target = .ok c → p.MemberName s c →
    s.Spells name → kind.MayCall name

theorem ReferenceKind.mayReferTo_normalized_iff {kind : ReferenceKind} {target : PoolIndex}
    (may : kind.MayReferTo v p target) :
    kind.MayReferTo v p.normalized target ↔ kind.MayCallSpelled p target := by
  obtain ⟨c, found, permitted, _⟩ := may
  have found' : p.normalized.get target = .ok c.normalized :=
    Pool.get_normalized_iff.mpr ⟨c, found, rfl⟩
  constructor
  · rintro ⟨_, again, _, calls⟩ method d s name found'' member spells
    cases found'.symm.trans again
    cases found.symm.trans found''
    exact calls method name (Pool.refersTo_normalized_iff.mpr ⟨s, member, spells⟩)
  · intro spelled
    refine ⟨c.normalized, found', by rw [Constant.kind_normalized]; exact permitted, ?_⟩
    intro method name refers
    obtain ⟨s, member, spells⟩ := Pool.refersTo_normalized_iff.mp refers
    exact spelled method c s name found member spells

theorem Constant.linked_normalized_iff {c : Constant} (linked : c.Linked v p) :
    c.normalized.Linked v p.normalized ↔
      ∀ kind target, c = .methodHandle kind target → kind.MayCallSpelled p target := by
  cases c with
  | methodHandle kind target =>
    have same : (methodHandle kind target).normalized = .methodHandle kind target := rfl
    rw [same, Linked, ReferenceKind.mayReferTo_normalized_iff linked]
    simp
  | utf8 | integer | float | long | double => simp [normalized, Linked]
  | _ => simpa [normalized, Linked, Pool.holds_normalized_iff] using linked

namespace ClassFile

variable {c : ClassFile}

/-- The class file as it is read back once it was written. -/
def normalized (c : ClassFile) : ClassFile := { c with pool := c.pool.normalized }

theorem writing_normalized (c : ClassFile) : c.normalized.writing = c.writing := by
  rw [writing, writing, normalized, Pool.writing_normalized]

theorem decode_of_written {bytes : List UInt8} (built : c.pool.Reachable)
    (written : c.encode = .ok bytes) : decode bytes = .ok c.normalized := by
  have layout : c.normalized.pool.WellFormed := built.wellFormed.normalized
  have encoded : Encoded c.normalized bytes := {
    built := Pool.reachable_iff_wellFormed.mpr layout
    faithful := c.pool.faithful_normalized
    written := by rw [encode, writing_normalized, ← encode, written] }
  exact decode_eq_ok_iff.mpr encoded.reads

theorem headerBreaches_normalized (clean : Validation.headerBreaches c = []) :
    Validation.headerBreaches c.normalized = [] := by
  rw [Validation.headerBreaches_eq_nil_iff] at clean ⊢
  obtain ⟨⟨thisClass, superClass, interfaces⟩, flags⟩ := clean
  refine ⟨⟨Pool.holds_normalized_iff.mpr thisClass, ?_, ?_⟩, flags⟩
  · rcases superClass with held | ⟨zero, object | isModule⟩
    · exact .inl (Pool.holds_normalized_iff.mpr held)
    · exact .inr ⟨zero, .inl object.normalized⟩
    · exact .inr ⟨zero, .inr isModule⟩
  · intro index member
    exact Pool.holds_normalized_iff.mpr (interfaces index member)

theorem field_valid_normalized {f : Field} (valid : f.Valid c) : f.Valid c.normalized where
  name := Pool.holds_normalized_iff.mpr valid.name
  descriptor := Pool.holds_normalized_iff.mpr valid.descriptor
  admitted := valid.admitted
  suits := valid.suits

/-- A method that comes to be a class initializer is judged by fewer rules for members, so only the
rules for names can be broken. -/
theorem method_valid_normalized_iff {m : Method} (valid : m.Valid c) :
    m.Valid c.normalized ↔ ∀ s name, c.pool.get m.name = .ok (.utf8 s) → s.Spells name →
      m.flags.SuitName c.version name := by
  constructor
  · intro h s name found spells
    exact h.suitName name (Pool.hasText_normalized_iff.mpr ⟨s, found, spells⟩)
  · intro spelled
    constructor
    · exact Pool.holds_normalized_iff.mpr valid.name
    · exact Pool.holds_normalized_iff.mpr valid.descriptor
    · exact valid.admitted
    · intro other
      exact valid.suits fun text => other text.normalized
    · intro name text
      obtain ⟨s, found, spells⟩ := Pool.hasText_normalized_iff.mp text
      exact spelled s name found spells

/-- The rules for names hold of all that the names spell, text or not. -/
structure SpelledNamesKept (c : ClassFile) : Prop where
  methods : ∀ m ∈ c.methods, ∀ s name, c.pool.get m.name = .ok (.utf8 s) → s.Spells name →
    m.flags.SuitName c.version name
  handles : ∀ index kind target, c.pool.get index = .ok (.methodHandle kind target) →
    kind.MayCallSpelled c.pool target

/-- The names that the rules look at are kept as bytes only where they are no text. -/
structure NamesFaithful (c : ClassFile) : Prop where
  methods : ∀ m ∈ c.methods, ∀ s, c.pool.get m.name = .ok (.utf8 s) → s.Faithful
  handles : ∀ index kind target k s, c.pool.get index = .ok (.methodHandle kind target) →
    c.pool.get target = .ok k → c.pool.MemberName s k → s.Faithful

theorem validate_normalized_iff (fits : c.pool.slots.size ≤ Pool.capacity)
    (valid : c.validate = []) : c.normalized.validate = [] ↔ c.SpelledNamesKept := by
  have fits' : c.normalized.pool.slots.size ≤ Pool.capacity := by
    rw [normalized, Pool.size_normalized]
    exact fits
  rw [validate_eq_nil_iff_checks fits] at valid
  obtain ⟨⟨⟨⟨version, entries⟩, header⟩, fields⟩, methods⟩ := valid
  rw [validate_eq_nil_iff_checks fits']
  constructor
  · rintro ⟨⟨⟨⟨_, entries'⟩, _⟩, _⟩, methods'⟩
    constructor
    · intro m member
      exact (method_valid_normalized_iff (methods m member)).mp (methods' m member)
    · intro index kind target found
      have linked := (entries index _ found).2
      have found' := Pool.get_normalized_iff.mpr ⟨_, found, rfl⟩
      exact (Constant.linked_normalized_iff linked).mp (entries' index _ found').2 kind target rfl
  · intro kept
    refine ⟨⟨⟨⟨version, ?_⟩, headerBreaches_normalized header⟩, ?_⟩, ?_⟩
    · intro index _ found
      obtain ⟨k, found', rfl⟩ := Pool.get_normalized_iff.mp found
      obtain ⟨available, linked⟩ := entries index k found'
      rw [Constant.kind_normalized]
      refine ⟨available, (Constant.linked_normalized_iff linked).mpr ?_⟩
      rintro kind target rfl
      exact kept.handles index kind target found'
    · intro f member
      exact field_valid_normalized (fields f member)
    · intro m member
      exact (method_valid_normalized_iff (methods m member)).mpr (kept.methods m member)

theorem NamesFaithful.spelledNamesKept (faithful : c.NamesFaithful)
    (fits : c.pool.slots.size ≤ Pool.capacity) (valid : c.validate = []) :
    c.SpelledNamesKept := by
  rw [validate_eq_nil_iff_checks fits] at valid
  obtain ⟨⟨⟨⟨_, entries⟩, _⟩, _⟩, methods⟩ := valid
  constructor
  · intro m member s name found spells
    obtain rfl := (faithful.methods m member s found).eq_text_of_spells spells
    exact (methods m member).suitName name found
  · intro index kind target found method k s name found' named spells
    have kept : s.Faithful := faithful.handles index kind target k s found found' named
    obtain rfl := kept.eq_text_of_spells spells
    obtain ⟨_, found'', _, calls⟩ := (entries index _ found).2
    cases found'.symm.trans found''
    exact calls method name (Pool.refersTo_iff.mpr named)

/-- A valid class file is read back as a valid one if and only if the rules for names hold of the
names as they are written. -/
theorem validate_written_iff {c : ClassFile} {bytes : List UInt8} (built : c.pool.Reachable)
    (valid : c.validate = []) (written : c.encode = .ok bytes) :
    ∃ d, decode bytes = .ok d ∧ (d.validate = [] ↔ c.SpelledNamesKept) ∧
      (c.NamesFaithful → d.validate = []) := by
  have fits := built.wellFormed.size_le
  have kept_iff := validate_normalized_iff fits valid
  refine ⟨c.normalized, decode_of_written built written, kept_iff, ?_⟩
  intro faithful
  exact kept_iff.mpr (faithful.spelledNamesKept fits valid)

/-- The root of all classes with one method, whose name is kept as bytes. -/
def namedInBytes (name : List UInt8) : ClassFile where
  version := .jdk 8
  pool := .ofConstants [.utf8 (.text objectName), .classRef 1, .utf8 (.raw name),
    .utf8 (.text "()V")]
  flags := ClassFlags.accPublic ∪ ClassFlags.accSuper
  thisClass := 2
  superClass := 0
  interfaces := []
  fields := []
  methods := [⟨∅, 3, 4, []⟩]
  attributes := []

theorem reachable_namedInBytes (name : List UInt8) : (namedInBytes name).pool.Reachable :=
  Pool.reachable_ofConstants (Nat.le_of_ble_eq_true rfl)

theorem namesFaithful_namedInBytes {name : List UInt8} (noText : ¬ModifiedUtf8.Canonical name) :
    (namedInBytes name).NamesFaithful where
  methods := by
    intro m member s found
    obtain rfl := List.mem_singleton.mp member
    have named : (namedInBytes name).pool.get 3 = .ok (.utf8 (.raw name)) := rfl
    cases named.symm.trans found
    exact noText
  handles := by
    intro index kind target k s found
    have fits := (reachable_namedInBytes name).wellFormed.size_le
    have member : .methodHandle kind target ∈ (namedInBytes name).pool.constants :=
      List.mem_map.mpr ⟨_, (Pool.mem_entries_iff fits).mpr found, rfl⟩
    rw [namedInBytes, Pool.constants_ofConstants] at member
    simp at member

def noTextBytes : List UInt8 :=
  [0xCA, 0xFE, 0xBA, 0xBE, 0x00, 0x00, 0x00, 0x34,
    0x00, 0x05,
    0x01, 0x00, 0x10, 0x6A, 0x61, 0x76, 0x61, 0x2F, 0x6C, 0x61, 0x6E, 0x67, 0x2F, 0x4F, 0x62, 0x6A,
    0x65, 0x63, 0x74,
    0x07, 0x00, 0x01,
    0x01, 0x00, 0x01, 0xFF,
    0x01, 0x00, 0x03, 0x28, 0x29, 0x56,
    0x00, 0x21, 0x00, 0x02, 0x00, 0x00, 0x00, 0x00, 0x00, 0x00,
    0x00, 0x01, 0x00, 0x00, 0x00, 0x03, 0x00, 0x04, 0x00, 0x00, 0x00, 0x00]

/-- A name that is no text is read back as it was. -/
theorem validate_written_noText :
    (namedInBytes [0xFF]).encode = .ok noTextBytes ∧
      ∃ d, decode noTextBytes = .ok d ∧ d.validate = [] := by
  have built := reachable_namedInBytes [0xFF]
  have valid : (namedInBytes [0xFF]).validate = [] := rfl
  have written : (namedInBytes [0xFF]).encode = .ok noTextBytes := rfl
  have noText : ¬ModifiedUtf8.Canonical [0xFF] := ModifiedUtf8.decode_eq_none_iff.mp (by decide)
  obtain ⟨d, decoded, _, clean⟩ := validate_written_iff built valid written
  exact ⟨written, d, decoded, clean (namesFaithful_namedInBytes noText)⟩

/-- The form of the name of class initializers. -/
def initializerForm : List UInt8 := [0x3C, 0x63, 0x6C, 0x69, 0x6E, 0x69, 0x74, 0x3E]

def initializerBytes : List UInt8 :=
  [0xCA, 0xFE, 0xBA, 0xBE, 0x00, 0x00, 0x00, 0x34,
    0x00, 0x05,
    0x01, 0x00, 0x10, 0x6A, 0x61, 0x76, 0x61, 0x2F, 0x6C, 0x61, 0x6E, 0x67, 0x2F, 0x4F, 0x62, 0x6A,
    0x65, 0x63, 0x74,
    0x07, 0x00, 0x01,
    0x01, 0x00, 0x08, 0x3C, 0x63, 0x6C, 0x69, 0x6E, 0x69, 0x74, 0x3E,
    0x01, 0x00, 0x03, 0x28, 0x29, 0x56,
    0x00, 0x21, 0x00, 0x02, 0x00, 0x00, 0x00, 0x00, 0x00, 0x00,
    0x00, 0x01, 0x00, 0x00, 0x00, 0x03, 0x00, 0x04, 0x00, 0x00, 0x00, 0x00]

/-- A method is not taken for a class initializer before its name is read back; then it lacks the
mark of a static one. -/
theorem validate_written_initializer :
    (namedInBytes initializerForm).pool.Reachable ∧ (namedInBytes initializerForm).validate = [] ∧
      (namedInBytes initializerForm).encode = .ok initializerBytes ∧
      ∃ d, decode initializerBytes = .ok d ∧ d.validate = [⟨.method 0,
        .requiredByName Method.classInitializerName ⟨.method, MethodFlags.accStatic⟩⟩] := by
  have built := reachable_namedInBytes initializerForm
  have written : (namedInBytes initializerForm).encode = .ok initializerBytes := rfl
  have found : (namedInBytes initializerForm).normalized.validate = [⟨.method 0,
      .requiredByName Method.classInitializerName ⟨.method, MethodFlags.accStatic⟩⟩] := by
    decide +kernel
  exact ⟨built, rfl, written, _, decode_of_written built written, found⟩

end ClassFile

end ClassFormat
