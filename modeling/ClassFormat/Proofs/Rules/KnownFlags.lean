import ClassFormat.Proofs.Rules.Thresholds
import ClassFormat.Validation.AccessFlags
import Mathlib.Data.List.Basic

/-!
All tables speak of flags with a name only. So two sets of flags that differ at most in bits without
a name are judged alike: each check finds the same breaches in them, with the same sets reported.
-/
namespace ClassFormat

namespace Flags

variable {o : FlagOwner} {a b flag set : Flags o}

/-- The two sets have the same flags with a name. -/
def SameKnown (a b : Flags o) : Prop := a ∩ known = b ∩ known

theorem sameKnown_iff : a.SameKnown b ↔ ∀ i : Nat, i ∈ (known : Flags o) → (i ∈ a ↔ i ∈ b) := by
  unfold SameKnown
  rw [eq_iff]
  simp only [mem_inter]
  apply forall_congr'
  intro i
  exact and_congr_left_iff

theorem sameKnown_inter (a : Flags o) : (a ∩ known).SameKnown a := by
  rw [sameKnown_iff]
  intro i named
  simp [named]

theorem SameKnown.refl (a : Flags o) : a.SameKnown a := rfl

theorem SameKnown.subset_iff (same : a.SameKnown b) (named : flag ⊆ known) :
    flag ⊆ a ↔ flag ⊆ b := by
  apply forall_congr'
  intro i
  apply imp_congr_right
  intro member
  exact sameKnown_iff.mp same i (named i member)

theorem SameKnown.contains (same : a.SameKnown b) (named : flag ⊆ known) :
    a.contains flag = b.contains flag := by
  rw [Bool.eq_iff_iff, contains_iff, contains_iff]
  exact same.subset_iff named

theorem SameKnown.inter (same : a.SameKnown b) (named : set ⊆ known) : a ∩ set = b ∩ set := by
  rw [eq_iff]
  intro i
  rw [mem_inter, mem_inter]
  apply and_congr_left
  intro member
  exact sameKnown_iff.mp same i (named i member)

theorem SameKnown.sdiff (same : a.SameKnown b) (named : set ⊆ known) : set \ a = set \ b := by
  rw [eq_iff]
  intro i
  rw [mem_sdiff, mem_sdiff]
  apply and_congr_right
  intro member
  exact not_congr (sameKnown_iff.mp same i (named i member))

theorem complement_subset (a : Flags o) : a.complement ⊆ known := by
  intro i member
  exact (mem_sdiff.mp member).1

end Flags

namespace Rules

open Flags (known)

theorem known_flagWindows (o : FlagOwner) : ∀ entry ∈ flagWindows o, entry.1 ⊆ known := by
  cases o <;> decide

theorem known_exclusiveSets (v : Version) (o : FlagOwner) :
    ∀ exclusive ∈ exclusiveSets o v, exclusive ⊆ known := by
  rw [exclusiveSets_eq]
  cases o <;> decide

theorem known_classKinds : ∀ kind ∈ classKinds, kind ⊆ known := by
  decide

theorem known_excludedBy (o : FlagOwner) :
    ∀ kind ∈ classKinds, excludedBy kind o ⊆ known := by
  cases o <;> decide

theorem known_requiredBy {kind : ClassFlags} (v : Version) (o : FlagOwner) :
    ∀ alternative ∈ requiredBy kind v o, alternative ⊆ known := by
  intro alternative member
  cases o with
  | classFile =>
    simp only [requiredBy] at member
    split at member
    · cases List.mem_singleton.mp member
      decide
    split at member
    · cases List.mem_singleton.mp member
      decide
    · cases member
  | field =>
    simp only [requiredBy] at member
    split at member
    · cases List.mem_singleton.mp member
      decide
    · cases member
  | method =>
    have layers : ∀ layer ∈ interfaceMethodLayers,
        ∀ alternative ∈ layer.2, alternative ⊆ known := by
      decide
    simp only [requiredBy] at member
    split at member
    · obtain ⟨layer, listed, member⟩ := exists_layer_of_mem member
      exact layers layer listed alternative member
    · cases member

theorem known_requiredByName (name : String) (v : Version) : requiredByName name v ⊆ known := by
  unfold requiredByName
  split
  · decide
  · decide

end Rules

namespace Validation

open Flags (SameKnown)

variable {o : FlagOwner} {a b : Flags o} {v : Version}

theorem windowBreaches_of_sameKnown (same : a.SameKnown b) {windows : List (Flags o × FlagWindow)}
    (named : ∀ entry ∈ windows, entry.1 ⊆ Flags.known) :
    windowBreaches v windows a = windowBreaches v windows b := by
  apply List.filterMap_congr
  rintro ⟨flag, window⟩ listed
  have contains := same.contains (named _ listed)
  simp only [contains]

theorem exclusionBreaches_of_sameKnown (same : a.SameKnown b) {sets : List (Flags o)}
    (named : ∀ set ∈ sets, set ⊆ Flags.known) :
    exclusionBreaches sets a = exclusionBreaches sets b := by
  apply List.filterMap_congr
  intro set listed
  rw [same.inter (named set listed)]

theorem tableBreaches_of_sameKnown (same : a.SameKnown b) :
    tableBreaches v a = tableBreaches v b := by
  unfold tableBreaches
  rw [windowBreaches_of_sameKnown same (Rules.known_flagWindows o),
    exclusionBreaches_of_sameKnown same (Rules.known_exclusiveSets v o)]

theorem classKindBreaches_of_sameKnown (same : a.SameKnown b) {kind : ClassFlags}
    {excluded : Flags o} {alternatives : List (Flags o)} (named : excluded ⊆ Flags.known)
    (named' : ∀ alternative ∈ alternatives, alternative ⊆ Flags.known) :
    classKindBreaches kind excluded alternatives a =
      classKindBreaches kind excluded alternatives b := by
  have any : alternatives.any a.contains = alternatives.any b.contains := by
    rw [Bool.eq_iff_iff, List.any_eq_true, List.any_eq_true]
    apply exists_congr
    intro alternative
    apply and_congr_right
    intro listed
    rw [same.contains (named' alternative listed)]
  unfold classKindBreaches
  rw [same.inter named, any]

theorem classKindsBreaches_of_sameKnown {classFlags classFlags' : ClassFlags}
    (class_same : classFlags.SameKnown classFlags') (same : a.SameKnown b) :
    classKindsBreaches v classFlags a = classKindsBreaches v classFlags' b := by
  have kinds : Rules.classKinds.filter classFlags.contains =
      Rules.classKinds.filter classFlags'.contains :=
    List.filter_congr fun kind listed => class_same.contains (Rules.known_classKinds kind listed)
  unfold classKindsBreaches
  rw [kinds]
  apply List.flatMap_congr
  intro kind member
  have listed := List.mem_of_mem_filter member
  exact classKindBreaches_of_sameKnown same (Rules.known_excludedBy o kind listed)
    (Rules.known_requiredBy v o)

theorem methodNameBreaches_of_sameKnown {a b : MethodFlags} (same : a.SameKnown b) (name : String) :
    methodNameBreaches v name a = methodNameBreaches v name b := by
  unfold methodNameBreaches
  rw [same.sdiff (Rules.known_requiredByName name v), same.inter (Flags.complement_subset _)]

end Validation

end ClassFormat
