import ClassFormat.Rules.MethodName
import ClassFormat.Rules.Window
import ClassFormat.Validation.Violation

/-!
The checks of access flags, which are the same for class files, fields and methods but for their
tables, and the additional ones for methods.
-/
namespace ClassFormat.Validation

variable {o : FlagOwner}

def windowBreaches (v : Version) (windows : List (Flags o × FlagWindow)) (flags : Flags o) :
    List Breach :=
  windows.filterMap fun (flag, window) =>
    if !flags.contains flag then none
    else if v < window.added then some (.flagNotYetIntroduced ⟨o, flag⟩ window.added)
    else match window.removed with
      | some removed => if removed ≤ v then some (.flagRemoved ⟨o, flag⟩ removed) else none
      | none => none

def exclusionBreaches (sets : List (Flags o)) (flags : Flags o) : List Breach :=
  sets.filterMap fun set =>
    if 1 < (flags ∩ set).size then some (.mutuallyExclusive ⟨o, flags ∩ set⟩) else none

def classKindBreaches (kind : ClassFlags) (excluded : Flags o) (alternatives : List (Flags o))
    (flags : Flags o) : List Breach :=
  (if (flags ∩ excluded).isEmpty then [] else [.excludedByClassKind kind ⟨o, flags ∩ excluded⟩]) ++
    if alternatives.isEmpty || alternatives.any flags.contains then []
    else [.requiredByClassKind kind (alternatives.map (⟨o, ·⟩))]

def classKindsBreaches (v : Version) (classFlags : ClassFlags) (flags : Flags o) : List Breach :=
  (Rules.classKinds.filter classFlags.contains).flatMap fun kind =>
    classKindBreaches kind (Rules.excludedBy kind o) (Rules.requiredBy kind v o) flags

def tableBreaches (v : Version) (flags : Flags o) : List Breach :=
  windowBreaches v (Rules.flagWindows o) flags ++ exclusionBreaches (Rules.exclusiveSets o v) flags

/-- What the name of a method has against its flags. Flags without a name are not judged. -/
def methodNameBreaches (v : Version) (name : String) (flags : MethodFlags) : List Breach :=
  let missing := Rules.requiredByName name v \ flags
  let present := flags ∩ (Rules.permittedByName name).complement
  (if missing.isEmpty then [] else [.requiredByName name ⟨.method, missing⟩]) ++
    if present.isEmpty then [] else [.notPermittedByName name ⟨.method, present⟩]

end ClassFormat.Validation
