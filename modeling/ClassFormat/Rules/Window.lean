import ClassFormat.Flags.Basic
import ClassFormat.Rules.Layer

/-!
The versions in which an access flag may be set.
-/
namespace ClassFormat

/-- The versions from `added` on and before `removed`, if there is such a limit. -/
structure FlagWindow where
  added : Version
  removed : Option Version
  deriving DecidableEq, Repr

namespace FlagWindow

def since (added : Version) : FlagWindow := ⟨added, none⟩

def between (added removed : Version) : FlagWindow := ⟨added, some removed⟩

def always : FlagWindow := since .origin

def contains (w : FlagWindow) (v : Version) : Bool :=
  w.added ≤ v && w.removed.all fun removed => v < removed

end FlagWindow

namespace Rules

def flagWindows : (o : FlagOwner) → List (Flags o × FlagWindow)
  | .classFile =>
    [(ClassFlags.accSynthetic, .since (.jdk 5)), (ClassFlags.accAnnotation, .since (.jdk 5)),
      (ClassFlags.accEnum, .since (.jdk 5)), (ClassFlags.accModule, .since (.jdk 9))]
  | .field =>
    [(FieldFlags.accSynthetic, .since (.jdk 5)), (FieldFlags.accEnum, .since (.jdk 5))]
  | .method =>
    [(MethodFlags.accStrict, .between .jdk1_2 (.jdk 17)), (MethodFlags.accBridge, .since (.jdk 5)),
      (MethodFlags.accVarargs, .since (.jdk 5)), (MethodFlags.accSynthetic, .since (.jdk 5))]

/-- The window of a flag by a table; a flag that is not listed may always be set. -/
def windowIn {o : FlagOwner} (windows : List (Flags o × FlagWindow)) (flag : Flags o) :
    FlagWindow :=
  ((windows.find? fun entry => entry.1 == flag).map (·.2)).getD .always

def flagWindow {o : FlagOwner} (flag : Flags o) : FlagWindow := windowIn (flagWindows o) flag

end Rules

end ClassFormat
