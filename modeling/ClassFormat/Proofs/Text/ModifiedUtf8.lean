import ClassFormat.Proofs.Text.Utf16
import ClassFormat.Text.JavaString

/-!
Decoding of modified UTF-8 accepts exactly what encoding produces, so the bytes of a string of a
class file determine the string. Main statements: `decode_eq_some_iff` and `ofBytes_eq_iff`.
-/
namespace ClassFormat

namespace ModifiedUtf8

/-- The bytes of a unit in each of its three forms, as they are decoded. -/
theorem encodeUnit_unit1 {b : UInt8} (nonzero : b.toNat ≠ 0) (low : b.toNat < 0x80) :
    encodeUnit b.toNat = [b] := by
  rw [encodeUnit, if_pos ⟨nonzero, low⟩, UInt8.ofNat_toNat]

theorem continuation_bounds {b : UInt8} (h : isContinuation b = true) :
    0x80 ≤ b.toNat ∧ b.toNat < 0xC0 := by
  rw [isContinuation, Bool.and_eq_true, decide_eq_true_eq, decide_eq_true_eq,
    UInt8.le_iff_toNat_le, UInt8.lt_iff_toNat_lt] at h
  exact h

theorem encodeUnit_unit2 {b₁ b₂ : UInt8} (start : 0xC0 ≤ b₁.toNat) (stop : b₁.toNat < 0xE0)
    (continued : isContinuation b₂ = true) (canonical : unit2 b₁ b₂ = 0 ∨ 0x80 ≤ unit2 b₁ b₂) :
    encodeUnit (unit2 b₁ b₂) = [b₁, b₂] ∧ unit2 b₁ b₂ < 0x10000 := by
  have second := continuation_bounds continued
  have value : unit2 b₁ b₂ = (b₁.toNat - 0xC0) * 0x40 + (b₂.toNat - 0x80) := rfl
  have first : 0xC0 + unit2 b₁ b₂ / 0x40 = b₁.toNat := by omega
  have last : 0x80 + unit2 b₁ b₂ % 0x40 = b₂.toNat := by omega
  refine ⟨?_, by omega⟩
  rw [encodeUnit, if_neg (by omega), if_pos (by omega), first, last, UInt8.ofNat_toNat,
    UInt8.ofNat_toNat]

theorem encodeUnit_unit3 {b₁ b₂ b₃ : UInt8} (start : 0xE0 ≤ b₁.toNat) (stop : b₁.toNat < 0xF0)
    (continued₂ : isContinuation b₂ = true) (continued₃ : isContinuation b₃ = true)
    (canonical : 0x800 ≤ unit3 b₁ b₂ b₃) :
    encodeUnit (unit3 b₁ b₂ b₃) = [b₁, b₂, b₃] ∧ unit3 b₁ b₂ b₃ < 0x10000 := by
  have second := continuation_bounds continued₂
  have third := continuation_bounds continued₃
  have value : unit3 b₁ b₂ b₃ =
      (b₁.toNat - 0xE0) * 0x1000 + (b₂.toNat - 0x80) * 0x40 + (b₃.toNat - 0x80) := rfl
  have first : 0xE0 + unit3 b₁ b₂ b₃ / 0x1000 = b₁.toNat := by omega
  have middle : 0x80 + unit3 b₁ b₂ b₃ / 0x40 % 0x40 = b₂.toNat := by omega
  have last : 0x80 + unit3 b₁ b₂ b₃ % 0x40 = b₃.toNat := by omega
  refine ⟨?_, by omega⟩
  rw [encodeUnit, if_neg (by omega), if_neg (by omega), first, middle, last, UInt8.ofNat_toNat,
    UInt8.ofNat_toNat, UInt8.ofNat_toNat]

theorem isContinuation_of_bounds {b : UInt8} (lower : 0x80 ≤ b.toNat) (upper : b.toNat < 0xC0) :
    isContinuation b = true := by
  rw [isContinuation, Bool.and_eq_true, decide_eq_true_eq, decide_eq_true_eq,
    UInt8.le_iff_toNat_le, UInt8.lt_iff_toNat_lt]
  exact ⟨lower, upper⟩

theorem not_lt_of_le_toNat {a b : UInt8} (h : a.toNat ≤ b.toNat) : ¬ b < a :=
  UInt8.not_lt.mpr (UInt8.le_iff_toNat_le.mpr h)

theorem le_toNat_of_not_lt {a b : UInt8} (h : ¬ b < a) : a.toNat ≤ b.toNat :=
  UInt8.le_iff_toNat_le.mp (UInt8.not_lt.mp h)

theorem decodeUnitsOnto_unit1 {b : UInt8} (nonzero : b.toNat ≠ 0) (low : b.toNat < 0x80)
    (rest : List UInt8) (found : List Nat) :
    decodeUnitsOnto (b :: rest) found = decodeUnitsOnto rest (b.toNat :: found) := by
  have ascii : b < 0x80 := UInt8.lt_iff_toNat_lt.mpr low
  have other : b ≠ 0 := fun zero => nonzero (zero ▸ rfl)
  rw [decodeUnitsOnto.eq_def]
  simp only [if_pos ascii, if_neg other]

theorem decodeUnitsOnto_unit2 {b₁ b₂ : UInt8} (start : 0xC0 ≤ b₁.toNat) (stop : b₁.toNat < 0xE0)
    (continued : isContinuation b₂ = true) (canonical : unit2 b₁ b₂ = 0 ∨ 0x80 ≤ unit2 b₁ b₂)
    (rest : List UInt8) (found : List Nat) :
    decodeUnitsOnto (b₁ :: b₂ :: rest) found = decodeUnitsOnto rest (unit2 b₁ b₂ :: found) := by
  have ascii : ¬ b₁ < 0x80 := not_lt_of_le_toNat (Nat.le_trans (by decide) start)
  have stray : ¬ b₁ < 0xC0 := not_lt_of_le_toNat start
  have two : b₁ < 0xE0 := UInt8.lt_iff_toNat_lt.mpr stop
  rw [decodeUnitsOnto, if_neg ascii, if_neg stray, if_pos two]
  simp [continued, canonical]

theorem decodeUnitsOnto_unit3 {b₁ b₂ b₃ : UInt8} (start : 0xE0 ≤ b₁.toNat)
    (stop : b₁.toNat < 0xF0) (continued₂ : isContinuation b₂ = true)
    (continued₃ : isContinuation b₃ = true) (canonical : 0x800 ≤ unit3 b₁ b₂ b₃)
    (rest : List UInt8) (found : List Nat) :
    decodeUnitsOnto (b₁ :: b₂ :: b₃ :: rest) found =
      decodeUnitsOnto rest (unit3 b₁ b₂ b₃ :: found) := by
  have ascii : ¬ b₁ < 0x80 := not_lt_of_le_toNat (Nat.le_trans (by decide) start)
  have stray : ¬ b₁ < 0xC0 := not_lt_of_le_toNat (Nat.le_trans (by decide) start)
  have two : ¬ b₁ < 0xE0 := not_lt_of_le_toNat start
  have three : b₁ < 0xF0 := UInt8.lt_iff_toNat_lt.mpr stop
  rw [decodeUnitsOnto, if_neg ascii, if_neg stray, if_neg two, if_pos three]
  simp [continued₂, continued₃, canonical]

theorem unit2_eq {b₁ b₂ : UInt8} {u : Nat} (first : b₁.toNat = 0xC0 + u / 0x40)
    (second : b₂.toNat = 0x80 + u % 0x40) : unit2 b₁ b₂ = u := by
  have value : unit2 b₁ b₂ = (b₁.toNat - 0xC0) * 0x40 + (b₂.toNat - 0x80) := rfl
  omega

theorem unit3_eq {b₁ b₂ b₃ : UInt8} {u : Nat} (first : b₁.toNat = 0xE0 + u / 0x1000)
    (second : b₂.toNat = 0x80 + u / 0x40 % 0x40) (third : b₃.toNat = 0x80 + u % 0x40) :
    unit3 b₁ b₂ b₃ = u := by
  have value : unit3 b₁ b₂ b₃ =
      (b₁.toNat - 0xE0) * 0x1000 + (b₂.toNat - 0x80) * 0x40 + (b₃.toNat - 0x80) := rfl
  omega

theorem toNat_ofNat_of_lt {n : Nat} (small : n < 0x100) : (UInt8.ofNat n).toNat = n := by
  rw [UInt8.toNat_ofNat', Nat.mod_eq_of_lt small]

/-- The bytes that stand for a unit: one, two or three, as few as it takes. -/
inductive Form : Nat → List UInt8 → Prop where
  | one {b : UInt8} (nonzero : b.toNat ≠ 0) (low : b.toNat < 0x80) : Form b.toNat [b]
  | two {b₁ b₂ : UInt8} (start : 0xC0 ≤ b₁.toNat) (stop : b₁.toNat < 0xE0)
      (continued : isContinuation b₂ = true)
      (canonical : unit2 b₁ b₂ = 0 ∨ 0x80 ≤ unit2 b₁ b₂) : Form (unit2 b₁ b₂) [b₁, b₂]
  | three {b₁ b₂ b₃ : UInt8} (start : 0xE0 ≤ b₁.toNat) (stop : b₁.toNat < 0xF0)
      (continued₂ : isContinuation b₂ = true) (continued₃ : isContinuation b₃ = true)
      (canonical : 0x800 ≤ unit3 b₁ b₂ b₃) : Form (unit3 b₁ b₂ b₃) [b₁, b₂, b₃]

theorem form_encodeUnit {u : Nat} (small : u < 0x10000) : Form u (encodeUnit u) := by
  by_cases one : u ≠ 0 ∧ u < 0x80
  · have value : (UInt8.ofNat u).toNat = u := toNat_ofNat_of_lt (by omega)
    have form : Form (UInt8.ofNat u).toNat [UInt8.ofNat u] := .one (by omega) (by omega)
    rw [encodeUnit, if_pos one]
    simpa only [value] using form
  by_cases two : u < 0x800
  · have first : (UInt8.ofNat (0xC0 + u / 0x40)).toNat = 0xC0 + u / 0x40 :=
      toNat_ofNat_of_lt (by omega)
    have second : (UInt8.ofNat (0x80 + u % 0x40)).toNat = 0x80 + u % 0x40 :=
      toNat_ofNat_of_lt (by omega)
    have value := unit2_eq first second
    have continued := isContinuation_of_bounds (b := UInt8.ofNat (0x80 + u % 0x40))
      (by omega) (by omega)
    have form := @Form.two (UInt8.ofNat (0xC0 + u / 0x40)) _ (by omega) (by omega) continued
      (by omega)
    rw [encodeUnit, if_neg one, if_pos two]
    simpa only [value] using form
  · have first : (UInt8.ofNat (0xE0 + u / 0x1000)).toNat = 0xE0 + u / 0x1000 :=
      toNat_ofNat_of_lt (by omega)
    have second : (UInt8.ofNat (0x80 + u / 0x40 % 0x40)).toNat = 0x80 + u / 0x40 % 0x40 :=
      toNat_ofNat_of_lt (by omega)
    have third : (UInt8.ofNat (0x80 + u % 0x40)).toNat = 0x80 + u % 0x40 :=
      toNat_ofNat_of_lt (by omega)
    have value := unit3_eq first second third
    have continued₂ := isContinuation_of_bounds (b := UInt8.ofNat (0x80 + u / 0x40 % 0x40))
      (by omega) (by omega)
    have continued₃ := isContinuation_of_bounds (b := UInt8.ofNat (0x80 + u % 0x40))
      (by omega) (by omega)
    have form := @Form.three (UInt8.ofNat (0xE0 + u / 0x1000)) _ _ (by omega) (by omega)
      continued₂ continued₃ (by omega)
    rw [encodeUnit, if_neg one, if_neg two]
    simpa only [value] using form

/-- The forms as the guards of the decoder have them. -/
theorem form_one {b : UInt8} (low : b < 0x80) (nonzero : ¬ b = 0) : Form b.toNat [b] :=
  .one (fun zero => nonzero (UInt8.toNat_inj.mp zero)) (UInt8.lt_iff_toNat_lt.mp low)

theorem form_two {b₁ b₂ : UInt8} (start : ¬ b₁ < 0xC0) (stop : b₁ < 0xE0)
    (accepted : (isContinuation b₂ && (unit2 b₁ b₂ == 0 || 0x80 ≤ unit2 b₁ b₂)) = true) :
    Form (unit2 b₁ b₂) [b₁, b₂] := by
  rw [Bool.and_eq_true, Bool.or_eq_true, beq_iff_eq, decide_eq_true_eq] at accepted
  exact .two (le_toNat_of_not_lt start) (UInt8.lt_iff_toNat_lt.mp stop) accepted.1 accepted.2

theorem form_three {b₁ b₂ b₃ : UInt8} (start : ¬ b₁ < 0xE0) (stop : b₁ < 0xF0)
    (accepted : (isContinuation b₂ && isContinuation b₃ && 0x800 ≤ unit3 b₁ b₂ b₃) = true) :
    Form (unit3 b₁ b₂ b₃) [b₁, b₂, b₃] := by
  rw [Bool.and_eq_true, Bool.and_eq_true, decide_eq_true_eq] at accepted
  exact .three (le_toNat_of_not_lt start) (UInt8.lt_iff_toNat_lt.mp stop) accepted.1.1
    accepted.1.2 accepted.2

theorem Form.encodeUnit_eq {u : Nat} {form : List UInt8} (formed : Form u form) :
    encodeUnit u = form ∧ u < 0x10000 := by
  cases formed with
  | one nonzero low => exact ⟨encodeUnit_unit1 nonzero low, Nat.lt_trans low (by decide)⟩
  | two start stop continued canonical => exact encodeUnit_unit2 start stop continued canonical
  | three start stop continued₂ continued₃ canonical =>
    exact encodeUnit_unit3 start stop continued₂ continued₃ canonical

/-- A unit is decoded from its form, whatever comes behind. -/
theorem decodeUnitsOnto_form_append {u : Nat} {form : List UInt8} (formed : Form u form)
    (rest : List UInt8) (found : List Nat) :
    decodeUnitsOnto (form ++ rest) found = decodeUnitsOnto rest (u :: found) := by
  cases formed with
  | one nonzero low => exact decodeUnitsOnto_unit1 nonzero low rest found
  | two start stop continued canonical =>
    exact decodeUnitsOnto_unit2 start stop continued canonical rest found
  | three start stop continued₂ continued₃ canonical =>
    exact decodeUnitsOnto_unit3 start stop continued₂ continued₃ canonical rest found

theorem decodeUnitsOnto_flatMap {units : List Nat} (small : ∀ u ∈ units, u < 0x10000)
    (found : List Nat) :
    decodeUnitsOnto (units.flatMap encodeUnit) found = some (found.reverse ++ units) := by
  induction units generalizing found with
  | nil => simp [decodeUnitsOnto]
  | cons u units ih =>
    have formed : Form u (encodeUnit u) := form_encodeUnit (small u (List.mem_cons_self ..))
    rw [List.flatMap_cons, decodeUnitsOnto_form_append formed,
      ih fun v member => small v (List.mem_cons_of_mem _ member), List.reverse_cons,
      List.append_assoc]
    rfl

/-- Bytes that the units behind those of `found` are encoded as. -/
def EncodedBehind (found units : List Nat) (bytes : List UInt8) : Prop :=
  ∃ later, units = found.reverse ++ later ∧ bytes = later.flatMap encodeUnit ∧
    ∀ u ∈ later, u < 0x10000

theorem Form.encodedBehind_append {u : Nat} {form : List UInt8} (formed : Form u form)
    {found units : List Nat} {rest : List UInt8} (h : EncodedBehind (u :: found) units rest) :
    EncodedBehind found units (form ++ rest) := by
  obtain ⟨later, rfl, rfl, small⟩ := h
  obtain ⟨encoded, bound⟩ := formed.encodeUnit_eq
  refine ⟨u :: later, ?_, ?_, List.forall_mem_cons.mpr ⟨bound, small⟩⟩
  · rw [List.reverse_cons, List.append_assoc, List.singleton_append]
  · rw [List.flatMap_cons, encoded]

/-- What is decoded behind the units found so far is encoded by the bytes read for it. -/
theorem decodeUnitsOnto_sound {bytes : List UInt8} {found units : List Nat}
    (accepted : decodeUnitsOnto bytes found = some units) : EncodedBehind found units bytes := by
  fun_induction decodeUnitsOnto bytes found with
  | case1 found =>
    cases accepted
    exact ⟨[], by simp, rfl, by simp⟩
  | case2 => cases accepted
  | case3 b rest found low nonzero ih =>
    exact (form_one low nonzero).encodedBehind_append (ih accepted)
  | case4 => cases accepted
  | case5 b₁ found _ start stop b₂ rest form ih =>
    exact (form_two start stop form).encodedBehind_append (ih accepted)
  | case6 => cases accepted
  | case7 b₁ rest found _ _ _ none =>
    cases rest with
    | nil => cases accepted
    | cons b₂ rest => exact absurd rfl (none b₂ rest)
  | case8 b₁ found _ _ start stop b₂ b₃ rest form ih =>
    exact (form_three start stop form).encodedBehind_append (ih accepted)
  | case9 => cases accepted
  | case10 => cases accepted
  | case11 => cases accepted

theorem decodeUnits_eq_some_iff {bytes : List UInt8} {units : List Nat} :
    decodeUnits bytes = some units ↔
      bytes = units.flatMap encodeUnit ∧ ∀ u ∈ units, u < 0x10000 := by
  constructor
  · intro accepted
    obtain ⟨later, rfl, form, small⟩ := decodeUnitsOnto_sound accepted
    exact ⟨form, small⟩
  · rintro ⟨rfl, small⟩
    exact decodeUnitsOnto_flatMap small []

theorem decode_eq_some_iff {bytes : List UInt8} {cs : List Char} :
    decode bytes = some cs ↔ bytes = encode cs := by
  rw [decode, Option.bind_eq_some_iff]
  constructor
  · rintro ⟨units, accepted, paired⟩
    obtain ⟨rfl, small⟩ := decodeUnits_eq_some_iff.mp accepted
    rw [(Utf16.decode_eq_some_iff small).mp paired, encode]
  · rintro rfl
    have small : ∀ u ∈ Utf16.encode cs, u < 0x10000 := fun _ => Utf16.lt_of_mem_encode
    exact ⟨Utf16.encode cs, decodeUnits_eq_some_iff.mpr ⟨rfl, small⟩,
      (Utf16.decode_eq_some_iff small).mpr rfl⟩

/-- The bytes are the form of some text. -/
def Canonical (bytes : List UInt8) : Prop := ∃ s : String, bytes = encode s.toList

theorem decode_eq_none_iff {bytes : List UInt8} : decode bytes = none ↔ ¬ Canonical bytes := by
  rw [Option.eq_none_iff_forall_not_mem]
  constructor
  · rintro none ⟨s, form⟩
    exact none s.toList (decode_eq_some_iff.mpr form)
  · intro none cs accepted
    refine none ⟨String.ofList cs, ?_⟩
    rw [String.toList_ofList]
    exact decode_eq_some_iff.mp accepted

end ModifiedUtf8

namespace JavaString

/-- Bytes are kept as they are only where they are not the form of a text. -/
def Faithful : JavaString → Prop
  | text _ => True
  | raw bytes => ¬ ModifiedUtf8.Canonical bytes

/-- The string of some bytes is the one that is written as these bytes. -/
theorem ofBytes_eq_iff {bytes : List UInt8} {s : JavaString} :
    ofBytes bytes = s ↔ bytes = s.toBytes ∧ s.Faithful := by
  rw [ofBytes]
  cases decoded : ModifiedUtf8.decode bytes with
  | some cs =>
    have form := ModifiedUtf8.decode_eq_some_iff.mp decoded
    cases s with
    | text value =>
      constructor
      · rintro ⟨⟩
        exact ⟨by rw [toBytes, String.toList_ofList, form], trivial⟩
      · rintro ⟨same, _⟩
        rw [toBytes, ← ModifiedUtf8.decode_eq_some_iff, decoded] at same
        rw [Option.some.inj same]
        exact congrArg text String.ofList_toList
    | raw kept =>
      constructor
      · rintro ⟨⟩
      · rintro ⟨rfl, faithful⟩
        exact absurd (ModifiedUtf8.decode_eq_none_iff.mpr faithful) (by simp [decoded])
  | none =>
    cases s with
    | text value =>
      constructor
      · rintro ⟨⟩
      · rintro ⟨rfl, _⟩
        rw [toBytes, ModifiedUtf8.decode_eq_some_iff.mpr rfl] at decoded
        cases decoded
    | raw kept =>
      constructor
      · rintro ⟨⟩
        exact ⟨rfl, ModifiedUtf8.decode_eq_none_iff.mp decoded⟩
      · rintro ⟨rfl, _⟩
        rfl

/-- Strings by some decoder, of which only results that are written as the same bytes are used. -/
def ofBytesBy (decoder : List UInt8 → Option String) (bytes : List UInt8) : JavaString :=
  match decoder bytes with
  | some value => if ModifiedUtf8.encode value.toList = bytes then text value else raw bytes
  | none => raw bytes

/-- With the check, it does not matter how lenient a decoder is that reads back every text. -/
theorem ofBytesBy_eq {decoder : List UInt8 → Option String}
    (reads_back : ∀ value : String, decoder (ModifiedUtf8.encode value.toList) = some value) :
    ofBytesBy decoder = ofBytes := by
  funext bytes
  symm
  rw [ofBytes_eq_iff, ofBytesBy]
  by_cases canonical : ModifiedUtf8.Canonical bytes
  · obtain ⟨value, rfl⟩ := canonical
    rw [reads_back]
    simp only [if_true]
    exact ⟨rfl, trivial⟩
  · have other (value : String) : ModifiedUtf8.encode value.toList ≠ bytes := by
      intro form
      exact canonical ⟨value, form.symm⟩
    cases decoder bytes with
    | some value =>
      simp only [if_neg (other value)]
      exact ⟨rfl, canonical⟩
    | none => exact ⟨rfl, canonical⟩

end JavaString

end ClassFormat
