/-!
Versions of the class file format, ordered by major and then by minor number.
-/
namespace ClassFormat

structure Version where
  major : UInt16
  minor : UInt16
  deriving DecidableEq, Repr

namespace Version

instance : LT Version := ⟨fun v w => v.major < w.major ∨ v.major = w.major ∧ v.minor < w.minor⟩
instance : LE Version := ⟨fun v w => v.major < w.major ∨ v.major = w.major ∧ v.minor ≤ w.minor⟩
instance (v w : Version) : Decidable (v < w) :=
  inferInstanceAs (Decidable (v.major < w.major ∨ v.major = w.major ∧ v.minor < w.minor))
instance (v w : Version) : Decidable (v ≤ w) :=
  inferInstanceAs (Decidable (v.major < w.major ∨ v.major = w.major ∧ v.minor ≤ w.minor))

def compare (v w : Version) : Ordering :=
  if v < w then .lt else if v = w then .eq else .gt

def maxMajor : UInt16 := 70

def previewMinor : UInt16 := 0xFFFF

/-- Below every version that was released. -/
def origin : Version := ⟨0, 0⟩
def jdk1_1 : Version := ⟨45, 3⟩
def jdk1_2 : Version := ⟨46, 0⟩
def jdk1_3 : Version := ⟨47, 0⟩
def jdk1_4 : Version := ⟨48, 0⟩

/-- The version of release `n`, from release 5 on. -/
def jdk (n : UInt16) : Version := ⟨n + 44, 0⟩

def named : List Version :=
  [origin, jdk1_1, jdk1_2, jdk1_3, jdk1_4, jdk 5, jdk 6, jdk 7, jdk 8, jdk 9, jdk 10, jdk 11,
    jdk 12, jdk 13, jdk 14, jdk 15, jdk 16, jdk 17, jdk 18, jdk 19, jdk 20, jdk 21, jdk 22, jdk 23,
    jdk 24, jdk 25, jdk 26]

instance : Inhabited Version := ⟨origin⟩

def isPreview (v : Version) : Bool := 56 ≤ v.major && v.minor == previewMinor

/-- Every minor number goes with major 45, only 0 with 46 to 55, and from 56 on also the preview
number. -/
def isSupported (v : Version) : Bool :=
  v.major == 45
    || (46 ≤ v.major && v.major ≤ 55 && v.minor == 0)
    || (56 ≤ v.major && v.major ≤ maxMajor && (v.minor == 0 || v.minor == previewMinor))

def text (v : Version) : String := s!"{v.major.toNat}.{v.minor.toNat}"

end Version

end ClassFormat
