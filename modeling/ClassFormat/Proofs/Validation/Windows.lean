import ClassFormat.Proofs.Validation.Reports
import Mathlib.Data.List.Forall2
import Mathlib.Data.List.Nodup

/-!
What is reported about flags outside of their windows. A table is gone through flag by flag, and it
can be asked for the window of a single flag; where each flag is listed once, the two agree. The
flags that are reported are those whose windows do not contain the version, each of them once and in
the order of the table. Main statement: `windows_reported`.
-/
namespace ClassFormat

namespace FlagWindow

variable {window : FlagWindow} {v : Version}

/-- What there is to say about a flag at a version outside of its window. A version before the
window is too early for it, even if the window ends before it begins. -/
inductive Untimely (window : FlagWindow) (v : Version) (flag : AccessFlagSet) : Breach → Prop where
  | early (before : v < window.added) :
    Untimely window v flag (.flagNotYetIntroduced flag window.added)
  | late {removed : Version} (begun : ¬v < window.added) (limit : window.removed = some removed)
      (ended : removed ≤ v) :
    Untimely window v flag (.flagRemoved flag removed)

theorem contains_iff : window.contains v = true ↔
    ¬v < window.added ∧ ∀ removed, window.removed = some removed → v < removed := by
  cases limit : window.removed with
  | none => simp [contains, limit, Version.not_lt]
  | some removed => simp [contains, limit, Version.not_lt]

theorem exists_untimely (outside : window.contains v = false) (flag : AccessFlagSet) :
    ∃ breach, window.Untimely v flag breach := by
  by_cases before : v < window.added
  · exact ⟨_, .early before⟩
  · have ends : ¬∀ removed, window.removed = some removed → v < removed := by
      intro inside
      have contained := contains_iff.mpr ⟨before, inside⟩
      cases outside.symm.trans contained
    obtain ⟨removed, limit, ended⟩ : ∃ removed, window.removed = some removed ∧ ¬v < removed := by
      simpa only [not_forall, exists_prop] using ends
    exact ⟨_, .late before limit (Version.not_lt.mp ended)⟩

theorem Untimely.unique {flag : AccessFlagSet} {breach other : Breach}
    (untimely : window.Untimely v flag breach) (untimely' : window.Untimely v flag other) :
    breach = other := by
  cases untimely with
  | early before =>
    cases untimely' with
    | early => rfl
    | late begun => exact absurd before begun
  | late begun limit =>
    cases untimely' with
    | early before => exact absurd before begun
    | late _ limit' => rw [Option.some.inj (limit.symm.trans limit')]

/-- A flag may always be set where no window says otherwise. -/
theorem contains_always (v : Version) : always.contains v = true :=
  contains_iff.mpr ⟨Version.not_lt.mpr (Version.origin_le v), fun _ limit => nomatch limit⟩

end FlagWindow

namespace Rules

variable {o : FlagOwner} {windows : List (Flags o × FlagWindow)}

/-- Where each flag is listed once, a lookup finds the window that it is listed with. -/
theorem windowIn_of_mem (distinct : (windows.map (·.1)).Nodup) {entry : Flags o × FlagWindow}
    (listed : entry ∈ windows) : windowIn windows entry.1 = entry.2 := by
  have present : (windows.find? fun other => other.1 == entry.1).isSome = true :=
    List.find?_isSome.mpr ⟨entry, listed, beq_self_eq_true entry.1⟩
  obtain ⟨other, found⟩ := Option.isSome_iff_exists.mp present
  have sameFlag : other.1 = entry.1 := by simpa using List.find?_some found
  have same : other = entry :=
    List.inj_on_of_nodup_map distinct (List.mem_of_find?_eq_some found) listed sameFlag
  simp only [windowIn, found, same, Option.map_some, Option.getD_some]

theorem windowIn_of_not_mem {flag : Flags o} (unlisted : flag ∉ windows.map (·.1)) :
    windowIn windows flag = .always := by
  have absent : (windows.find? fun entry => entry.1 == flag) = none := by
    apply List.find?_eq_none.mpr
    intro entry listed same
    exact unlisted (List.mem_map.mpr ⟨entry, listed, beq_iff_eq.mp same⟩)
  simp only [windowIn, absent, Option.map_none, Option.getD_none]

/-- The listed flags of a set that are outside of their windows, in the order of the table. -/
def untimelyIn (windows : List (Flags o × FlagWindow)) (v : Version) (flags : Flags o) :
    List (Flags o) :=
  (windows.map (·.1)).filter fun flag =>
    flag ⊆ flags ∧ (windowIn windows flag).contains v = false

theorem nodup_flagWindows (o : FlagOwner) : ((flagWindows o).map (·.1)).Nodup := by
  cases o <;> decide

/-- Flags that are not listed are never untimely. -/
theorem mem_untimelyIn_iff {v : Version} {flags flag : Flags o} :
    flag ∈ untimelyIn (flagWindows o) v flags ↔
      flag ⊆ flags ∧ (flagWindow flag).contains v = false := by
  simp only [untimelyIn, List.mem_filter, decide_eq_true_iff, flagWindow, and_iff_right_iff_imp]
  rintro ⟨_, outside⟩
  by_contra unlisted
  rw [windowIn_of_not_mem unlisted, FlagWindow.contains_always] at outside
  cases outside

end Rules

namespace Validation

variable {o : FlagOwner} {v : Version} {windows : List (Flags o × FlagWindow)} {flags : Flags o}

theorem windowBreaches_cons (entry : Flags o × FlagWindow) :
    windowBreaches v (entry :: windows) flags =
      windowBreaches v [entry] flags ++ windowBreaches v windows flags :=
  List.filterMap_append (l := [entry])

/-- A flag outside of its window is reported once. -/
theorem windowBreaches_of_untimely {entry : Flags o × FlagWindow} {breach : Breach}
    (set : entry.1 ⊆ flags) (untimely : entry.2.Untimely v ⟨o, entry.1⟩ breach) :
    windowBreaches v [entry] flags = [breach] := by
  have present := Flags.contains_iff.mpr set
  cases untimely with
  | early before => simp [windowBreaches, present, before]
  | late begun limit ended => simp [windowBreaches, present, begun, limit, ended]

/-- The induction is on the table; any lookup will do that agrees with it. -/
theorem windowBreaches_untimely (lookup : Flags o → FlagWindow)
    (agrees : ∀ entry ∈ windows, lookup entry.1 = entry.2) :
    List.Forall₂ (fun flag breach => (lookup flag).Untimely v ⟨o, flag⟩ breach)
      ((windows.map (·.1)).filter fun flag => flag ⊆ flags ∧ (lookup flag).contains v = false)
      (windowBreaches v windows flags) := by
  induction windows with
  | nil => exact .nil
  | cons entry windows ih =>
    have here : lookup entry.1 = entry.2 := agrees entry List.mem_cons_self
    have later := ih fun other listed => agrees other (List.mem_cons_of_mem entry listed)
    rw [windowBreaches_cons, List.map_cons]
    by_cases outside : entry.1 ⊆ flags ∧ (lookup entry.1).contains v = false
    · obtain ⟨breach, untimely⟩ := FlagWindow.exists_untimely outside.2 ⟨o, entry.1⟩
      rw [List.filter_cons_of_pos (by simpa using outside),
        windowBreaches_of_untimely outside.1 (here ▸ untimely)]
      exact .cons untimely later
    · have kept : windowBreaches v [entry] flags = [] := by
        apply windowBreaches_eq_nil_iff.mpr
        intro flag window member set
        obtain rfl := List.mem_singleton.mp member
        exact Bool.of_not_eq_false fun missed => outside ⟨set, here ▸ missed⟩
      rw [List.filter_cons_of_neg (by simpa using outside), kept, List.nil_append]
      exact later

theorem windowBreaches_forall₂ (distinct : (windows.map (·.1)).Nodup) :
    List.Forall₂ (fun flag breach => (Rules.windowIn windows flag).Untimely v ⟨o, flag⟩ breach)
      (Rules.untimelyIn windows v flags) (windowBreaches v windows flags) :=
  windowBreaches_untimely _ fun _ => Rules.windowIn_of_mem distinct

/-- Of the rules for the header and for members, those on windows come behind the references and in
front of all others on flags. -/
theorem filter_window_part (p : Pool) (references : List Reference) {rest : List Breach}
    (same : ∀ breach ∈ rest, breach.subject = .combination) :
    (referenceBreaches p references ++ tableBreaches v flags ++ rest).filter
        (·.subject = .window) =
      windowBreaches v (Rules.flagWindows o) flags := by
  unfold tableBreaches
  simp only [List.filter_append]
  rw [filter_other_subject (fun _ => subject_of_mem_reference) (by decide),
    filter_subject_eq_self fun _ => subject_of_mem_window,
    filter_other_subject (fun _ => subject_of_mem_exclusion) (by decide),
    filter_other_subject same (by decide), List.append_nil, List.append_nil, List.nil_append]

theorem filter_window_method (s : Setting) (m : Method) :
    (methodBreaches s m).filter (·.subject = .window) =
      windowBreaches s.version (Rules.flagWindows .method) m.flags := by
  unfold methodBreaches
  rw [List.append_assoc]
  refine filter_window_part s.pool (memberReferences m) fun breach member => ?_
  rcases List.mem_append.mp member with kinds | names
  · exact subject_of_mem_classKinds (List.mem_ite_nil_left.mp kinds).2
  · split at names
    · exact subject_of_mem_methodName names
    · cases names

end Validation

/-- The flag that is reported for not being in its window. -/
def Breach.untimelyFlag? : Breach → Option AccessFlagSet
  | flagNotYetIntroduced flag _ | flagRemoved flag _ => some flag
  | _ => none

namespace Breach

variable {breach : Breach} {flag : AccessFlagSet}

theorem subject_of_untimelyFlag? (named : breach.untimelyFlag? = some flag) :
    breach.subject = .window := by
  cases breach with
  | flagNotYetIntroduced | flagRemoved => rfl
  | _ => cases named

end Breach

theorem FlagWindow.Untimely.untimelyFlag? {window : FlagWindow} {v : Version}
    {flag : AccessFlagSet} {breach : Breach} (untimely : window.Untimely v flag breach) :
    breach.untimelyFlag? = some flag := by
  cases untimely with
  | early | late => rfl

namespace ClassFile

open Validation

variable {c : ClassFile}

/-- The sets of flags of a class file, each with the place of what it belongs to. -/
def flagSets (c : ClassFile) : List (Location × AccessFlagSet) :=
  [(.classFile, ⟨.classFile, c.flags⟩)] ++
    (c.fields.zipIdx.map fun e => (.field e.2, ⟨.field, e.1.flags⟩)) ++
    c.methods.zipIdx.map fun e => (.method e.2, ⟨.method, e.1.flags⟩)

/-- The flags of a class file whose windows do not contain its version. -/
def untimelyFlags (c : ClassFile) : List (Location × AccessFlagSet) :=
  c.flagSets.flatMap fun e =>
    (Rules.untimelyIn (Rules.flagWindows e.2.owner) c.version e.2.flags).map fun flag =>
      (e.1, ⟨e.2.owner, flag⟩)

/-- Something is reported at a place about the window of a flag. -/
def ReportsUntimely (c : ClassFile) (place : Location) (flag : AccessFlagSet) : Prop :=
  ∃ violation ∈ c.validate,
    violation.location = place ∧ violation.breach.untimelyFlag? = some flag

theorem filter_window_validate (c : ClassFile) :
    c.validate.filter (·.breach.subject = .window) =
      blocks (·.1) (fun e => windowBreaches c.version (Rules.flagWindows e.2.owner) e.2.flags)
        c.flagSets := by
  have header : (headerBreaches c).filter (·.subject = .window) =
      windowBreaches c.version (Rules.flagWindows .classFile) c.flags :=
    filter_window_part c.pool (headerReferences c) fun _ => subject_of_mem_classKinds
  have field (f : Field) : (fieldBreaches c.setting f).filter (·.subject = .window) =
      windowBreaches c.version (Rules.flagWindows .field) f.flags :=
    filter_window_part c.pool (memberReferences f) fun _ => subject_of_mem_classKinds
  have method (m : Method) : (methodBreaches c.setting m).filter (·.subject = .window) =
      windowBreaches c.version (Rules.flagWindows .method) m.flags :=
    filter_window_method c.setting m
  rw [filter_breach_validate c (·.subject = .window),
    filter_other_subject (fun _ => subject_of_mem_version) (by decide),
    blocks_eq_nil_iff.mpr fun _ _ => filter_subject_constant (by decide), header]
  simp only [field, method]
  simp [blocks, flagSets, located, List.flatMap_map]

theorem mem_flagSets_classFile {flags : ClassFlags} :
    (.classFile, ⟨.classFile, flags⟩) ∈ c.flagSets ↔ flags = c.flags := by
  simp [flagSets]

theorem mem_flagSets_field {i : Nat} {f : Field} (found : c.fields[i]? = some f)
    {flags : FieldFlags} : (.field i, ⟨.field, flags⟩) ∈ c.flagSets ↔ flags = f.flags := by
  simp [flagSets, List.mk_mem_zipIdx_iff_getElem?, found, eq_comm]

theorem mem_flagSets_method {i : Nat} {m : Method} (found : c.methods[i]? = some m)
    {flags : MethodFlags} : (.method i, ⟨.method, flags⟩) ∈ c.flagSets ↔ flags = m.flags := by
  simp [flagSets, List.mk_mem_zipIdx_iff_getElem?, found, eq_comm]

theorem mem_untimelyFlags_iff {place : Location} {flag : AccessFlagSet} :
    (place, flag) ∈ c.untimelyFlags ↔
      ∃ flags, (place, ⟨flag.owner, flags⟩) ∈ c.flagSets ∧ flag.flags ⊆ flags ∧
        (Rules.flagWindow flag.flags).contains c.version = false := by
  simp only [untimelyFlags, List.mem_flatMap, List.mem_map, Rules.mem_untimelyIn_iff]
  constructor
  · rintro ⟨⟨place, owner, flags⟩, listed, flag, outside, same⟩
    cases same
    exact ⟨flags, listed, outside⟩
  · rintro ⟨flags, listed, outside⟩
    exact ⟨_, listed, flag.flags, outside, rfl⟩

/-- The violation is at the place of the flag and says why the flag may not be set. -/
def UntimelyAt (v : Version) (e : Location × AccessFlagSet) (violation : Violation) : Prop :=
  violation.location = e.1 ∧ (Rules.flagWindow e.2.flags).Untimely v e.2 violation.breach

theorem untimelyFlags_forall₂ (c : ClassFile) :
    List.Forall₂ (UntimelyAt c.version) c.untimelyFlags
      (c.validate.filter (·.breach.subject = .window)) := by
  rw [filter_window_validate, untimelyFlags]
  induction c.flagSets with
  | nil => exact .nil
  | cons e sets ih =>
    rw [List.flatMap_cons, blocks_cons]
    refine List.rel_append ?_ ih
    rw [located, List.forall₂_map_left_iff, List.forall₂_map_right_iff]
    exact (windowBreaches_forall₂ (Rules.nodup_flagWindows e.2.owner)).imp
      fun _ _ untimely => ⟨rfl, untimely⟩

theorem reportsUntimely_iff {place : Location} {flag : AccessFlagSet} :
    c.ReportsUntimely place flag ↔ (place, flag) ∈ c.untimelyFlags := by
  have keys : c.untimelyFlags.map (fun e => (e.1, some e.2)) =
      (c.validate.filter (·.breach.subject = .window)).map
        fun violation => (violation.location, violation.breach.untimelyFlag?) := by
    rw [← List.forall₂_eq_eq_eq, List.forall₂_map_left_iff, List.forall₂_map_right_iff]
    refine c.untimelyFlags_forall₂.imp fun e violation found => ?_
    rw [found.1, found.2.untimelyFlag?]
  have listed : (place, flag) ∈ c.untimelyFlags ↔
      (place, some flag) ∈ c.untimelyFlags.map fun e => (e.1, some e.2) := by
    simp
  rw [listed, keys, List.mem_map]
  simp only [ReportsUntimely, List.mem_filter, decide_eq_true_iff, Prod.mk.injEq]
  constructor
  · rintro ⟨violation, found, here, named⟩
    exact ⟨violation, ⟨found, Breach.subject_of_untimelyFlag? named⟩, here, named⟩
  · rintro ⟨violation, ⟨found, _⟩, here, named⟩
    exact ⟨violation, found, here, named⟩

/-- Which flags of a class file are reported for not being in their windows, and how. -/
structure WindowsReported (c : ClassFile) : Prop where
  in_order : List.Forall₂ (UntimelyAt c.version) c.untimelyFlags
    (c.validate.filter (·.breach.subject = .window))
  of_class : ∀ flag, c.ReportsUntimely .classFile ⟨.classFile, flag⟩ ↔
    flag ⊆ c.flags ∧ (Rules.flagWindow flag).contains c.version = false
  of_field : ∀ i f, c.fields[i]? = some f → ∀ flag,
    c.ReportsUntimely (.field i) ⟨.field, flag⟩ ↔
      flag ⊆ f.flags ∧ (Rules.flagWindow flag).contains c.version = false
  of_method : ∀ i m, c.methods[i]? = some m → ∀ flag,
    c.ReportsUntimely (.method i) ⟨.method, flag⟩ ↔
      flag ⊆ m.flags ∧ (Rules.flagWindow flag).contains c.version = false

/-- A table of windows has one breach for each of its flags that is set and whose window, as it is
looked up, does not contain the version, in its order and no others. So a class file is reported at
each place for the flags that are set there and whose windows do not contain its version. -/
theorem windows_reported :
    (∀ {o : FlagOwner} {windows : List (Flags o × FlagWindow)}, (windows.map (·.1)).Nodup →
      ∀ (v : Version) (flags : Flags o),
        List.Forall₂
          (fun flag breach => (Rules.windowIn windows flag).Untimely v ⟨o, flag⟩ breach)
          (Rules.untimelyIn windows v flags) (windowBreaches v windows flags)) ∧
    ∀ c : ClassFile, c.WindowsReported := by
  refine ⟨fun distinct v flags => windowBreaches_forall₂ distinct, fun c => ?_⟩
  constructor
  · exact c.untimelyFlags_forall₂
  · intro flag
    rw [reportsUntimely_iff, mem_untimelyFlags_iff]
    simp only [mem_flagSets_classFile, exists_eq_left]
  · intro i f found flag
    rw [reportsUntimely_iff, mem_untimelyFlags_iff]
    simp only [mem_flagSets_field found, exists_eq_left]
  · intro i m found flag
    rw [reportsUntimely_iff, mem_untimelyFlags_iff]
    simp only [mem_flagSets_method found, exists_eq_left]

/-- A flag that was removed before it was introduced, and one that is in its window. -/
def neverAllowed : List (MethodFlags × FlagWindow) :=
  [(MethodFlags.accStrict, .between (.jdk 17) .jdk1_2), (MethodFlags.accBridge, .since (.jdk 5))]

theorem windows_reported_neverAllowed :
    (neverAllowed.map (·.1)).Nodup ∧
      windowBreaches (.jdk 8) neverAllowed (MethodFlags.accStrict ∪ MethodFlags.accBridge) =
        [.flagNotYetIntroduced ⟨.method, MethodFlags.accStrict⟩ (.jdk 17)] ∧
      wrongThroughout.ReportsUntimely (.field 0) ⟨.field, FieldFlags.accSynthetic⟩ := by
  have distinct : (neverAllowed.map (·.1)).Nodup := by decide
  have reported := windows_reported.1 distinct (.jdk 8)
    (MethodFlags.accStrict ∪ MethodFlags.accBridge)
  have listed : Rules.untimelyIn neverAllowed (.jdk 8)
      (MethodFlags.accStrict ∪ MethodFlags.accBridge) = [MethodFlags.accStrict] := by decide
  rw [listed] at reported
  obtain ⟨breach, others, untimely, none, found⟩ := List.forall₂_cons_left_iff.mp reported
  have only : breach = .flagNotYetIntroduced ⟨.method, MethodFlags.accStrict⟩ (.jdk 17) :=
    untimely.unique (.early (by decide))
  rw [only, List.forall₂_nil_left_iff.mp none] at found
  have field := (windows_reported.2 wrongThroughout).of_field 0 _ rfl FieldFlags.accSynthetic
  exact ⟨distinct, found, field.mpr (by decide)⟩

end ClassFile

end ClassFormat
