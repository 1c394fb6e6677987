import ClassFormat.Proofs.Flags.Sets
import ClassFormat.Rules.Availability
import ClassFormat.Rules.MethodName
import ClassFormat.Rules.Window
import Mathlib.Data.List.Find

/-!
How the rules depend on the version. Tables are looked up by thresholds: all of them have minor
number 0, so that only the major number of a version counts (`…_of_major_eq`), and what a later
layer asks for, the layers before it ask for as well (`latest?_grows`).
-/
namespace ClassFormat

namespace Version

variable {t v w : Version}

theorem not_lt : ¬v < w ↔ w ≤ v := by
  show ¬(v.major < w.major ∨ v.major = w.major ∧ v.minor < w.minor) ↔
    (w.major < v.major ∨ w.major = v.major ∧ w.minor ≤ v.minor)
  simp only [UInt16.lt_iff_toNat_lt, UInt16.le_iff_toNat_le, ← UInt16.toNat_inj]
  omega

theorem not_le : ¬v ≤ w ↔ w < v := by
  rw [← not_lt, Decidable.not_not]

theorem le_trans (first : t ≤ v) (second : v ≤ w) : t ≤ w := by
  change t.major < v.major ∨ t.major = v.major ∧ t.minor ≤ v.minor at first
  change v.major < w.major ∨ v.major = w.major ∧ v.minor ≤ w.minor at second
  show t.major < w.major ∨ t.major = w.major ∧ t.minor ≤ w.minor
  simp only [UInt16.lt_iff_toNat_lt, UInt16.le_iff_toNat_le, ← UInt16.toNat_inj] at first second ⊢
  omega

theorem origin_le (v : Version) : origin ≤ v := by
  show 0 < v.major ∨ 0 = v.major ∧ 0 ≤ v.minor
  simp only [UInt16.lt_iff_toNat_lt, UInt16.le_iff_toNat_le, ← UInt16.toNat_inj, UInt16.toNat_zero]
  omega

/-- A version without a minor number is a lower bound by major numbers alone. -/
theorem le_iff_of_minor_eq_zero (whole : t.minor = 0) : t ≤ v ↔ t.major ≤ v.major := by
  show t.major < v.major ∨ t.major = v.major ∧ t.minor ≤ v.minor ↔ t.major ≤ v.major
  rw [whole]
  simp only [UInt16.lt_iff_toNat_lt, UInt16.le_iff_toNat_le, ← UInt16.toNat_inj, UInt16.toNat_zero]
  omega

theorem le_iff_of_major_eq (whole : t.minor = 0) (same : v.major = w.major) : t ≤ v ↔ t ≤ w := by
  rw [le_iff_of_minor_eq_zero whole, le_iff_of_minor_eq_zero whole, same]

theorem lt_iff_of_major_eq (whole : t.minor = 0) (same : v.major = w.major) : v < t ↔ w < t := by
  rw [← not_le, ← not_le, le_iff_of_major_eq whole same]

end Version

namespace Rules

variable {α : Type} {layers : List (Version × α)} {v w : Version} {a : α}

theorem latest?_of_major_eq (whole : ∀ layer ∈ layers, layer.1.minor = 0)
    (same : v.major = w.major) : latest? layers v = latest? layers w := by
  have agree : ∀ layer ∈ layers.reverse, decide (layer.1 ≤ v) = decide (layer.1 ≤ w) := by
    intro layer member
    have listed := whole layer (List.mem_reverse.mp member)
    exact decide_eq_decide.mpr (Version.le_iff_of_major_eq listed same)
  rw [latest?, latest?, List.find?_congr agree]

theorem mem_of_latest? (found : latest? layers v = some a) : ∃ layer ∈ layers, layer.2 = a := by
  rw [latest?, Option.map_eq_some_iff] at found
  obtain ⟨layer, chosen, value⟩ := found
  exact ⟨layer, List.mem_reverse.mp (List.mem_of_find?_eq_some chosen), value⟩

/-- What a table lists for a version is listed in one of its layers. -/
theorem exists_layer_of_mem {lists : List (Version × List α)}
    (member : a ∈ (latest? lists v).getD []) : ∃ layer ∈ lists, a ∈ layer.2 := by
  cases chosen : latest? lists v with
  | none =>
    rw [chosen] at member
    cases member
  | some inside =>
    rw [chosen] at member
    obtain ⟨layer, listed, rfl⟩ := mem_of_latest? chosen
    exact ⟨layer, listed, member⟩

/-- A table that holds from the origin on has a layer for every version. -/
theorem latest?_isSome (first : (Version.origin, a) ∈ layers) : (latest? layers v).isSome := by
  rw [latest?, Option.isSome_map, List.find?_isSome]
  exact ⟨_, List.mem_reverse.mpr first, decide_eq_true (Version.origin_le v)⟩

/-- From one version to a later one a table moves on to a later layer or stays where it is. -/
theorem latest?_grows {related : α → α → Prop} (refl : ∀ a, related a a)
    (grows : layers.Pairwise fun earlier later => related earlier.2 later.2) (later : v ≤ w)
    (found : latest? layers v = some a) : ∃ b, latest? layers w = some b ∧ related a b := by
  rw [← List.reverse_reverse layers, List.pairwise_reverse] at grows
  rw [latest?] at found ⊢
  -- Lookup goes through the layers from the last one on.
  generalize layers.reverse = descending at grows found ⊢
  induction descending with
  | nil => cases found
  | cons layer rest ih =>
    obtain ⟨above, grows⟩ := List.pairwise_cons.mp grows
    by_cases begun : layer.1 ≤ w
    · refine ⟨layer.2, by rw [List.find?_cons_of_pos (by simpa using begun)]; rfl, ?_⟩
      by_cases already : layer.1 ≤ v
      · rw [List.find?_cons_of_pos (by simpa using already)] at found
        cases found
        exact refl layer.2
      · rw [List.find?_cons_of_neg (by simpa using already)] at found
        obtain ⟨earlier, chosen, value⟩ := Option.map_eq_some_iff.mp found
        exact value ▸ above earlier (List.mem_of_find?_eq_some chosen)
    · have before : ¬layer.1 ≤ v := fun already => begun (Version.le_trans already later)
      rw [List.find?_cons_of_neg (by simpa using before)] at found
      rw [List.find?_cons_of_neg (by simpa using begun)]
      exact ih grows found

theorem minor_minimumVersion (kind : ConstantKind) : (minimumVersion kind).minor = 0 := by
  cases kind <;> rfl

theorem minor_referentLayers (kind : ReferenceKind) :
    ∀ layer ∈ referentLayers kind, layer.1.minor = 0 := by
  cases kind <;> decide

theorem permittedReferents_of_major_eq (kind : ReferenceKind) (same : v.major = w.major) :
    permittedReferents kind v = permittedReferents kind w := by
  rw [permittedReferents, permittedReferents, latest?_of_major_eq (minor_referentLayers kind) same]

/-- All referents that some version permits have a property if all that the table lists have it. -/
theorem of_permitted {kind : ReferenceKind} (property : ConstantKind → Prop)
    (listed : ∀ layer ∈ referentLayers kind, ∀ found ∈ layer.2, property found)
    {found : ConstantKind} (permitted : found ∈ permittedReferents kind v) : property found := by
  obtain ⟨layer, member, inside⟩ := exists_layer_of_mem permitted
  exact listed layer member found inside

theorem eq_fieldRef_of_permitted {kind : ReferenceKind} {found : ConstantKind}
    (field : kind.isFieldAccess = true) (permitted : found ∈ permittedReferents kind v) :
    found = .fieldRef := by
  refine of_permitted (· = .fieldRef) ?_ permitted
  revert field
  cases kind <;> decide

theorem eq_methodRef_of_permitted {found : ConstantKind}
    (permitted : found ∈ permittedReferents .newInvokeSpecial v) : found = .methodRef :=
  of_permitted (· = .methodRef) (by decide) permitted

/-- In every version a method handle refers to a member. -/
theorem isMember_of_permitted {kind : ReferenceKind} {found : ConstantKind}
    (permitted : found ∈ permittedReferents kind v) :
    found ∈ [ConstantKind.fieldRef, .methodRef, .interfaceMethodRef] := by
  refine of_permitted (· ∈ [ConstantKind.fieldRef, .methodRef, .interfaceMethodRef]) ?_ permitted
  cases kind <;> decide

/-- What a method handle may refer to, it may refer to in all later versions. -/
theorem permittedReferents_mono (kind : ReferenceKind) (later : v ≤ w) :
    permittedReferents kind v ⊆ permittedReferents kind w := by
  have grows : (referentLayers kind).Pairwise fun earlier later => earlier.2 ⊆ later.2 := by
    cases kind <;> decide
  rw [permittedReferents, permittedReferents]
  cases chosen : latest? (referentLayers kind) v with
  | none => exact List.nil_subset _
  | some kinds =>
    obtain ⟨wider, chosen', subset⟩ :=
      latest?_grows (fun _ => List.Subset.refl _) grows later chosen
    rw [chosen']
    exact subset

/-- No set of flags became or ceased to be exclusive. -/
theorem exclusiveSets_eq (o : FlagOwner) :
    exclusiveSets o v = (exclusiveLayers o).map (·.2) := by
  have always : ∀ layer ∈ exclusiveLayers o, layer.1 = .origin := by
    cases o <;> decide
  have begun : ∀ layer ∈ exclusiveLayers o, decide (layer.1 ≤ v) = true := by
    intro layer listed
    rw [always layer listed]
    exact decide_eq_true (Version.origin_le v)
  rw [exclusiveSets, Rules.begun, List.filter_eq_self.mpr begun]

theorem requiredBy_of_major_eq (kind : ClassFlags) (o : FlagOwner) (same : v.major = w.major) :
    requiredBy kind v o = requiredBy kind w o := by
  cases o with
  | classFile | field => rfl
  | method =>
    have whole : ∀ layer ∈ interfaceMethodLayers, layer.1.minor = 0 := by decide
    rw [requiredBy, requiredBy, latest?_of_major_eq whole same]

/-- Whatever has one of the first alternatives has one of the second. -/
def WeakensTo {o : FlagOwner} (earlier later : List (Flags o)) : Prop :=
  ∀ a ∈ earlier, ∃ b ∈ later, b ⊆ a

instance {o : FlagOwner} (earlier later : List (Flags o)) : Decidable (WeakensTo earlier later) :=
  inferInstanceAs (Decidable (∀ a ∈ earlier, ∃ b ∈ later, b ⊆ a))

theorem WeakensTo.refl {o : FlagOwner} (alternatives : List (Flags o)) :
    WeakensTo alternatives alternatives :=
  fun a member => ⟨a, member, fun _ => id⟩

/-- Flags that have one of the alternatives of a version have one of those of every later one. -/
theorem requiredBy_mono {kind : ClassFlags} {o : FlagOwner} {flags : Flags o} (later : v ≤ w)
    (met : requiredBy kind v o ≠ [] → ∃ alternative ∈ requiredBy kind v o, alternative ⊆ flags) :
    requiredBy kind w o ≠ [] → ∃ alternative ∈ requiredBy kind w o, alternative ⊆ flags := by
  cases o with
  | classFile | field => exact met
  | method =>
    have first : (Version.origin, [MethodFlags.accAbstract ∪ MethodFlags.accPublic]) ∈
        interfaceMethodLayers := by decide
    have none_empty : ∀ layer ∈ interfaceMethodLayers, layer.2 ≠ [] := by decide
    have grows : interfaceMethodLayers.Pairwise fun earlier later =>
        WeakensTo earlier.2 later.2 := by decide
    simp only [requiredBy] at met ⊢
    by_cases isInterface : kind = ClassFlags.accInterface
    · rw [if_pos isInterface] at met ⊢
      obtain ⟨alternatives, chosen⟩ := Option.isSome_iff_exists.mp (latest?_isSome (v := v) first)
      obtain ⟨layer, listed, rfl⟩ := mem_of_latest? chosen
      obtain ⟨next, chosen', weaker⟩ := latest?_grows WeakensTo.refl grows later chosen
      rw [chosen, Option.getD_some] at met
      obtain ⟨a, member, subset⟩ := met (none_empty layer listed)
      obtain ⟨b, member', less⟩ := weaker a member
      intro _
      rw [chosen', Option.getD_some]
      exact ⟨b, member', fun i inB => subset i (less i inB)⟩
    · rw [if_neg isInterface]
      exact fun some => absurd rfl some

theorem requiredByName_of_major_eq (name : String) (same : v.major = w.major) :
    requiredByName name v = requiredByName name w := by
  have whole : (Version.jdk 7).minor = 0 := rfl
  simp only [requiredByName, Version.le_iff_of_major_eq whole same]

/-- The versions at which a window begins and ends. -/
def bounds (window : FlagWindow) : List Version := window.added :: window.removed.toList

theorem minor_flagWindows (o : FlagOwner) :
    ∀ entry ∈ flagWindows o, ∀ bound ∈ bounds entry.2, bound.minor = 0 := by
  cases o <;> decide

end Rules

end ClassFormat
