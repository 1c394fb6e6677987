import ClassFormat.Proofs.Text.ModifiedUtf8

/-!
The bytes that are no text, told by the flaw they have somewhere: a byte that starts no form, a form
that is cut off, stretched out or longer than it has to be, or a surrogate without its other half.
No form needs the bytes around it to be recognized, since only its first byte is no continuation.
Main statements: `decode_eq_none_iff_flaw` and `codec_exact`.
-/
namespace ClassFormat

namespace ModifiedUtf8

/-- How many continuations belong to the first byte of a form. -/
def trailing (b : UInt8) : Nat :=
  if b.toNat < 0x80 then 0 else if b.toNat < 0xE0 then 1 else 2

/-- How many continuations some bytes start with. -/
def continued (bytes : List UInt8) : Nat := (bytes.takeWhile isContinuation).length

/-- Two bytes that start a form of a unit for which fewer bytes are enough. The unit 0 is the one
below 0x80 that takes two. -/
def Overlong (b₁ b₂ : UInt8) : Prop :=
  b₁ = 0xC0 ∧ b₂ ≠ 0x80 ∨ b₁ = 0xC1 ∨ b₁ = 0xE0 ∧ b₂.toNat < 0xA0

/-- A byte, with the bytes behind it, that is not the start of a form with its continuations. -/
inductive Malformed (b : UInt8) (rest : List UInt8) : Prop where
  | zero (null : b = 0)
  /-- Such a byte starts four bytes in UTF-8, and nothing in modified UTF-8. -/
  | large (beyond : 0xF0 ≤ b.toNat)
  | cutOff (start : isContinuation b = false) (few : continued rest < trailing b)
  | stray (start : isContinuation b = false) (many : trailing b < continued rest)
  | overlong {c : UInt8} (second : rest.head? = some c) (padded : Overlong b c)

/-- Three bytes of a surrogate, of which the second tells which half it is. -/
def SurrogateForm (lower upper : Nat) (form : List UInt8) : Prop :=
  ∃ b c : UInt8, form = [0xED, b, c] ∧ lower ≤ b.toNat ∧ b.toNat < upper

def HighForm : List UInt8 → Prop := SurrogateForm 0xA0 0xB0

def LowForm : List UInt8 → Prop := SurrogateForm 0xB0 0xC0

/-- Something that no text has, at a place with `front` before it and `back` from it on. -/
inductive Flaw : List UInt8 → List UInt8 → Prop where
  | headless {back : List UInt8} (loose : 0 < continued back) : Flaw [] back
  | malformed {front rest : List UInt8} {b : UInt8} (wrong : Malformed b rest) :
      Flaw front (b :: rest)
  | loneHigh {front form back : List UInt8} (high : HighForm form)
      (alone : ∀ next, next <+: back → ¬ LowForm next) : Flaw front (form ++ back)
  | loneLow {front form back : List UInt8} (low : LowForm form)
      (alone : ∀ last, last <:+ front → ¬ HighForm last) : Flaw front (form ++ back)

theorem isContinuation_eq_false {b : UInt8} (outside : b.toNat < 0x80 ∨ 0xC0 ≤ b.toNat) :
    isContinuation b = false := by
  rw [Bool.eq_false_iff]
  intro continuation
  have inside := continuation_bounds continuation
  omega

/-- What the forms have in common: a first byte that is no continuation and tells how many
continuations are the others. -/
structure Led (b : UInt8) (others : List UInt8) : Prop where
  nonzero : b.toNat ≠ 0
  bounded : b.toNat < 0xF0
  start : isContinuation b = false
  length : others.length = trailing b
  continuations : ∀ c ∈ others, isContinuation c = true

theorem trailing_eq_one {b : UInt8} (start : 0x80 ≤ b.toNat) (stop : b.toNat < 0xE0) :
    trailing b = 1 := by
  rw [trailing, if_neg (Nat.not_lt.mpr start), if_pos stop]

theorem trailing_eq_two {b : UInt8} (start : 0xE0 ≤ b.toNat) : trailing b = 2 := by
  rw [trailing, if_neg (by omega), if_neg (by omega)]

theorem Form.exists_led {u : Nat} {form : List UInt8} (formed : Form u form) :
    ∃ b others, form = b :: others ∧ Led b others := by
  cases formed with
  | @one b nonzero low =>
    have none : trailing b = 0 := if_pos low
    exact ⟨b, [], rfl, nonzero, by omega, isContinuation_eq_false (.inl low), none.symm, by simp⟩
  | @two b₁ b₂ start stop continued canonical =>
    have one : trailing b₁ = 1 := trailing_eq_one (by omega) stop
    refine ⟨b₁, [b₂], rfl, by omega, by omega, isContinuation_eq_false (.inr start), one.symm, ?_⟩
    simpa using continued
  | @three b₁ b₂ b₃ start stop continued₂ continued₃ canonical =>
    have two : trailing b₁ = 2 := trailing_eq_two start
    refine ⟨b₁, [b₂, b₃], rfl, by omega, stop, isContinuation_eq_false (.inr (by omega)),
      two.symm, ?_⟩
    simpa using ⟨continued₂, continued₃⟩

theorem continued_cons_of_start {b : UInt8} (start : isContinuation b = false)
    (rest : List UInt8) : continued (b :: rest) = 0 := by
  simp [continued, start]

theorem continued_cons_of_continuation {b : UInt8} (continuation : isContinuation b = true)
    (rest : List UInt8) : continued (b :: rest) = continued rest + 1 := by
  simp [continued, continuation]

theorem continued_le_length (bytes : List UInt8) : continued bytes ≤ bytes.length :=
  (List.takeWhile_prefix isContinuation).length_le

theorem Led.continued_append {b : UInt8} {others : List UInt8} (led : Led b others)
    (rest : List UInt8) : continued (others ++ rest) = trailing b + continued rest := by
  rw [continued, List.takeWhile_append_of_pos led.continuations, List.length_append, led.length,
    continued]

section Boundaries

variable {units : List Nat} {front back : List UInt8}

/-- A byte that continues nothing is behind all continuations of a form. -/
theorem Led.behind {first b : UInt8} {others rest : List UInt8} (led : Led first others)
    (start : isContinuation b = false) (bytes : others ++ rest = front ++ b :: back) :
    ∃ between, front = others ++ between ∧ rest = between ++ b :: back := by
  rcases List.append_eq_append_iff.mp bytes with later | ⟨inner, split, place⟩
  · exact later
  · cases inner with
    | nil => exact ⟨[], by simpa using split.symm, by simpa using place.symm⟩
    | cons c inner =>
      obtain ⟨rfl, _⟩ := List.cons.inj place
      have continuation := led.continuations b (by simp [split])
      rw [start] at continuation
      cases continuation

theorem flatMap_encodeUnit_eq_nil (small : ∀ u ∈ units, u < 0x10000)
    (empty : units.flatMap encodeUnit = []) : units = [] := by
  cases units with
  | nil => rfl
  | cons u units =>
    obtain ⟨b, others, form, _⟩ := (form_encodeUnit (small u (by simp))).exists_led
    simp [form] at empty

theorem continued_flatMap_encodeUnit (small : ∀ u ∈ units, u < 0x10000) :
    continued (units.flatMap encodeUnit) = 0 := by
  cases units with
  | nil => rfl
  | cons u units =>
    obtain ⟨b, others, form, led⟩ := (form_encodeUnit (small u (by simp))).exists_led
    rw [List.flatMap_cons, form, List.cons_append, continued_cons_of_start led.start]

/-- A byte that continues nothing starts the form of a unit, and the units split there. -/
theorem exists_unit_at (small : ∀ u ∈ units, u < 0x10000) {b : UInt8}
    (start : isContinuation b = false)
    (bytes : units.flatMap encodeUnit = front ++ b :: back) :
    ∃ before u after, units = before ++ u :: after ∧ front = before.flatMap encodeUnit ∧
      b :: back = encodeUnit u ++ after.flatMap encodeUnit := by
  induction units generalizing front with
  | nil => simp at bytes
  | cons u units ih =>
    cases front with
    | nil => exact ⟨[], u, units, rfl, rfl, bytes.symm⟩
    | cons lead front =>
      obtain ⟨first, others, form, led⟩ := (form_encodeUnit (small u (by simp))).exists_led
      have later : ∀ v ∈ units, v < 0x10000 := fun v member => small v (by simp [member])
      rw [List.flatMap_cons, form, List.cons_append, List.cons_append] at bytes
      obtain ⟨rfl, tail⟩ := List.cons.inj bytes
      obtain ⟨between, rfl, behind⟩ := led.behind start tail
      obtain ⟨before, v, after, rfl, rfl, place⟩ := ih later behind
      exact ⟨u :: before, v, after, rfl, by rw [List.flatMap_cons, form, List.cons_append], place⟩

end Boundaries

theorem Form.not_overlong {u : Nat} {b₁ b₂ : UInt8} {others rest : List UInt8}
    (formed : Form u (b₁ :: others)) (second : (others ++ rest).head? = some b₂) :
    ¬ Overlong b₁ b₂ := by
  cases formed with
  | one nonzero low =>
    rintro (⟨rfl, _⟩ | rfl | ⟨rfl, _⟩)
    all_goals exact absurd low (by decide)
  | @two _ c start stop continued canonical =>
    obtain rfl : c = b₂ := Option.some.inj second
    have bounds := continuation_bounds continued
    rintro (⟨rfl, other⟩ | rfl | ⟨rfl, _⟩)
    · have value : unit2 0xC0 c = c.toNat - 0x80 := Nat.zero_add _
      exact other (UInt8.toNat_inj.mp (show c.toNat = 0x80 by omega))
    · have value : unit2 0xC1 c = 0x40 + (c.toNat - 0x80) := rfl
      omega
    · exact absurd stop (by decide)
  | @three _ c d start stop continued₂ continued₃ canonical =>
    obtain rfl : c = b₂ := Option.some.inj second
    have bounds := continuation_bounds continued₃
    rintro (⟨rfl, other⟩ | rfl | ⟨rfl, low⟩)
    · exact absurd start (by decide)
    · exact absurd start (by decide)
    · have value : unit3 0xE0 c d = 0 + (c.toNat - 0x80) * 0x40 + (d.toNat - 0x80) := rfl
      omega

/-- A form with no continuation behind it is not malformed. -/
theorem Form.not_malformed {u : Nat} {b : UInt8} {others rest : List UInt8}
    (formed : Form u (b :: others)) (next : continued rest = 0) :
    ¬ Malformed b (others ++ rest) := by
  intro wrong
  obtain ⟨_, _, ⟨⟩, led⟩ := formed.exists_led
  have exactly : continued (others ++ rest) = trailing b := by
    rw [led.continued_append, next, Nat.add_zero]
  cases wrong with
  | zero null => exact led.nonzero (null ▸ rfl)
  | large beyond => exact Nat.not_lt.mpr beyond led.bounded
  | cutOff _ few => exact absurd exactly (Nat.ne_of_lt few)
  | stray _ many => exact absurd exactly (Nat.ne_of_gt many)
  | overlong second padded => exact formed.not_overlong second padded

theorem Malformed.start {b : UInt8} {rest : List UInt8} (wrong : Malformed b rest) :
    isContinuation b = false := by
  cases wrong with
  | zero null => exact isContinuation_eq_false (.inl (by simp [null]))
  | large beyond => exact isContinuation_eq_false (.inr (by omega))
  | cutOff start _ => exact start
  | stray start _ => exact start
  | overlong _ padded =>
    rcases padded with ⟨rfl, _⟩ | rfl | ⟨rfl, _⟩
    all_goals decide

theorem malformed_short {b : UInt8} {rest : List UInt8} (start : 0xC0 ≤ b.toNat)
    (short : rest.length < trailing b) : Malformed b rest :=
  .cutOff (isContinuation_eq_false (.inr start))
    (Nat.lt_of_le_of_lt (continued_le_length rest) short)

theorem malformed_two {b₁ b₂ : UInt8} (start : 0xC0 ≤ b₁.toNat) (stop : b₁.toNat < 0xE0)
    (refused : ¬ (isContinuation b₂ = true ∧ (unit2 b₁ b₂ = 0 ∨ 0x80 ≤ unit2 b₁ b₂)))
    (rest : List UInt8) : Malformed b₁ (b₂ :: rest) := by
  cases next : isContinuation b₂ with
  | false =>
    refine .cutOff (isContinuation_eq_false (.inr start)) ?_
    rw [continued_cons_of_start next, trailing_eq_one (by omega) stop]
    decide
  | true =>
    have bounds := continuation_bounds next
    have value : unit2 b₁ b₂ = (b₁.toNat - 0xC0) * 0x40 + (b₂.toNat - 0x80) := rfl
    rw [and_iff_right next] at refused
    refine .overlong rfl ?_
    by_cases first : b₁.toNat = 0xC0
    · refine .inl ⟨UInt8.toNat_inj.mp first, ?_⟩
      rintro rfl
      exact refused (.inl (by rw [value, first]; rfl))
    · have second : b₁.toNat = 0xC1 := by omega
      exact .inr (.inl (UInt8.toNat_inj.mp second))

theorem malformed_three {b₁ b₂ b₃ : UInt8} (start : 0xE0 ≤ b₁.toNat)
    (refused : ¬ (isContinuation b₂ = true ∧ isContinuation b₃ = true ∧ 0x800 ≤ unit3 b₁ b₂ b₃))
    (rest : List UInt8) : Malformed b₁ (b₂ :: b₃ :: rest) := by
  have first := isContinuation_eq_false (b := b₁) (.inr (by omega))
  cases next : isContinuation b₂ with
  | false =>
    refine .cutOff first ?_
    rw [continued_cons_of_start next, trailing_eq_two start]
    decide
  | true =>
    cases last : isContinuation b₃ with
    | false =>
      refine .cutOff first ?_
      rw [continued_cons_of_continuation next, continued_cons_of_start last,
        trailing_eq_two start]
      decide
    | true =>
      have bounds := continuation_bounds next
      have value : unit3 b₁ b₂ b₃ =
          (b₁.toNat - 0xE0) * 0x1000 + (b₂.toNat - 0x80) * 0x40 + (b₃.toNat - 0x80) := rfl
      rw [and_iff_right next, and_iff_right last] at refused
      have lead : b₁.toNat = 0xE0 := by omega
      exact .overlong rfl (.inr (.inr ⟨UInt8.toNat_inj.mp lead, by omega⟩))

/-- Behind a form, loose continuations are too many for it, and what is malformed stays so. -/
theorem Form.exists_malformed_append {u : Nat} {form rest : List UInt8} (formed : Form u form)
    (later : 0 < continued rest ∨ ∃ front b back, rest = front ++ b :: back ∧ Malformed b back) :
    ∃ front b back, form ++ rest = front ++ b :: back ∧ Malformed b back := by
  rcases later with loose | ⟨front, b, back, rfl, wrong⟩
  · obtain ⟨b, others, rfl, led⟩ := formed.exists_led
    refine ⟨[], b, others ++ rest, rfl, .stray led.start ?_⟩
    rw [led.continued_append]
    exact Nat.lt_add_of_pos_right loose
  · exact ⟨form ++ front, b, back, by rw [List.append_assoc], wrong⟩

/-- Where no units are decoded, some byte is malformed or the first continues nothing. Only the first
can be loose: further on, the form before it is the one with too many continuations. -/
theorem exists_malformed {bytes : List UInt8} {found : List Nat}
    (refused : decodeUnitsOnto bytes found = none) :
    0 < continued bytes ∨ ∃ front b back, bytes = front ++ b :: back ∧ Malformed b back := by
  fun_induction decodeUnitsOnto bytes found with
  | case1 => cases refused
  | case2 rest => exact .inr ⟨[], 0, rest, rfl, .zero rfl⟩
  | case3 b rest found low nonzero ih =>
    exact .inr ((form_one low nonzero).exists_malformed_append (ih refused))
  | case4 b rest found start stop =>
    have continuation : isContinuation b = true :=
      isContinuation_of_bounds (le_toNat_of_not_lt start) (UInt8.lt_iff_toNat_lt.mp stop)
    have one_more := continued_cons_of_continuation continuation rest
    exact .inl (one_more ▸ Nat.succ_pos _)
  | case5 b₁ found _ start stop b₂ rest form ih =>
    exact .inr ((form_two start stop form).exists_malformed_append (ih refused))
  | case6 b₁ found _ start stop b₂ rest form =>
    rw [Bool.and_eq_true, Bool.or_eq_true, beq_iff_eq, decide_eq_true_eq] at form
    have wrong :=
      malformed_two (le_toNat_of_not_lt start) (UInt8.lt_iff_toNat_lt.mp stop) form rest
    exact .inr ⟨[], b₁, b₂ :: rest, rfl, wrong⟩
  | case7 b₁ rest found _ start stop none =>
    have first : 0xC0 ≤ b₁.toNat := le_toNat_of_not_lt start
    have one := trailing_eq_one (Nat.le_trans (by decide) first) (UInt8.lt_iff_toNat_lt.mp stop)
    have short : rest.length < 1 := by
      cases rest with
      | nil => decide
      | cons b₂ rest => exact absurd rfl (none b₂ rest)
    exact .inr ⟨[], b₁, rest, rfl, malformed_short first (one.symm ▸ short)⟩
  | case8 b₁ found _ _ start stop b₂ b₃ rest form ih =>
    exact .inr ((form_three start stop form).exists_malformed_append (ih refused))
  | case9 b₁ found _ _ start stop b₂ b₃ rest form =>
    rw [Bool.and_eq_true, Bool.and_eq_true, decide_eq_true_eq, and_assoc] at form
    have wrong := malformed_three (le_toNat_of_not_lt start) form rest
    exact .inr ⟨[], b₁, b₂ :: b₃ :: rest, rfl, wrong⟩
  | case10 b₁ rest found _ _ start stop none =>
    have first : 0xE0 ≤ b₁.toNat := le_toNat_of_not_lt start
    have short : rest.length < 2 := by
      cases rest with
      | nil => decide
      | cons b₂ rest =>
        cases rest with
        | nil => exact Nat.lt_succ_self 1
        | cons b₃ rest => exact absurd rfl (none b₂ b₃ rest)
    exact .inr ⟨[], b₁, rest, rfl, malformed_short (Nat.le_trans (by decide) first)
      ((trailing_eq_two first).symm ▸ short)⟩
  | case11 b rest found _ _ _ large =>
    exact .inr ⟨[], b, rest, rfl, .large (le_toNat_of_not_lt large)⟩

section Surrogates

variable {units before after : List Nat} {u lower upper : Nat} {form front back : List UInt8}

theorem Form.surrogateForm_iff (formed : Form u form) (low : 0x80 ≤ lower) (order : lower ≤ upper)
    (high : upper ≤ 0xC0) :
    SurrogateForm lower upper form ↔
      0xD000 + (lower - 0x80) * 0x40 ≤ u ∧ u < 0xD000 + (upper - 0x80) * 0x40 := by
  cases formed with
  | one nonzero below =>
    constructor
    · rintro ⟨_, _, ⟨⟩, _⟩
    · omega
  | @two b₁ b₂ start stop continued canonical =>
    have bounds := continuation_bounds continued
    have value : unit2 b₁ b₂ = (b₁.toNat - 0xC0) * 0x40 + (b₂.toNat - 0x80) := rfl
    constructor
    · rintro ⟨_, _, ⟨⟩, _⟩
    · omega
  | @three b₁ b₂ b₃ start stop continued₂ continued₃ canonical =>
    have second := continuation_bounds continued₂
    have third := continuation_bounds continued₃
    have value : unit3 b₁ b₂ b₃ =
        (b₁.toNat - 0xE0) * 0x1000 + (b₂.toNat - 0x80) * 0x40 + (b₃.toNat - 0x80) := rfl
    constructor
    · rintro ⟨b, c, same, bounds⟩
      obtain ⟨rfl, rfl, rfl⟩ : b₁ = 0xED ∧ b₂ = b ∧ b₃ = c := by simpa using same
      have lead : (0xED : UInt8).toNat = 0xED := rfl
      omega
    · intro range
      have lead : b₁.toNat = 0xED := by omega
      obtain rfl : b₁ = 0xED := UInt8.toNat_inj.mp lead
      exact ⟨b₂, b₃, rfl, by omega⟩

theorem highForm_encodeUnit_iff (small : u < 0x10000) :
    HighForm (encodeUnit u) ↔ Utf16.isHigh u = true := by
  rw [HighForm, (form_encodeUnit small).surrogateForm_iff (by decide) (by decide) (by decide)]
  simp [Utf16.isHigh]

theorem lowForm_encodeUnit_iff (small : u < 0x10000) :
    LowForm (encodeUnit u) ↔ Utf16.isLow u = true := by
  rw [LowForm, (form_encodeUnit small).surrogateForm_iff (by decide) (by decide) (by decide)]
  simp [Utf16.isLow]

/-- The three bytes of a surrogate stand for one unit wherever they are found. -/
theorem exists_surrogate_at (small : ∀ u ∈ units, u < 0x10000)
    (surrogate : SurrogateForm lower upper form)
    (bytes : units.flatMap encodeUnit = front ++ (form ++ back)) :
    ∃ before u after, units = before ++ u :: after ∧ front = before.flatMap encodeUnit ∧
      form = encodeUnit u ∧ back = after.flatMap encodeUnit := by
  obtain ⟨b, c, rfl, _⟩ := surrogate
  have lead : units.flatMap encodeUnit = front ++ 0xED :: b :: c :: back := bytes
  obtain ⟨before, u, after, rfl, rfl, place⟩ := exists_unit_at small (by decide) lead
  have formed : Form u (encodeUnit u) := form_encodeUnit (small u (by simp))
  refine ⟨before, u, after, rfl, rfl, ?_⟩
  generalize encodeUnit u = form at place formed
  cases formed with
  | one nonzero low =>
    obtain ⟨rfl, _⟩ := List.cons.inj place
    exact absurd low (by decide)
  | two start stop continued canonical =>
    obtain ⟨rfl, _⟩ := List.cons.inj place
    exact absurd stop (by decide)
  | three start stop continued₂ continued₃ canonical =>
    simp only [List.cons_append, List.nil_append, List.cons.injEq] at place
    obtain ⟨rfl, rfl, rfl, rfl⟩ := place
    exact ⟨rfl, rfl⟩

theorem no_lowForm_behind_iff (small : ∀ u ∈ after, u < 0x10000) :
    (∀ next, next <+: after.flatMap encodeUnit → ¬ LowForm next) ↔
      ∀ v ∈ after.head?, Utf16.isLow v = false := by
  constructor
  · intro alone v first
    obtain ⟨others, rfl⟩ := List.head?_eq_some_iff.mp first
    rw [Bool.eq_false_iff, Ne, ← lowForm_encodeUnit_iff (small v (by simp))]
    exact alone _ ⟨others.flatMap encodeUnit, rfl⟩
  · rintro alone next ⟨rest, split⟩ low
    have bytes : after.flatMap encodeUnit = [] ++ (next ++ rest) := split.symm
    obtain ⟨earlier, v, others, rfl, nothing, rfl, _⟩ := exists_surrogate_at small low bytes
    have smaller : ∀ u ∈ earlier, u < 0x10000 := fun u member => small u (by simp [member])
    obtain rfl := flatMap_encodeUnit_eq_nil smaller nothing.symm
    have isLow := (lowForm_encodeUnit_iff (small v (by simp))).mp low
    rw [alone v rfl] at isLow
    cases isLow

theorem no_highForm_before_iff (small : ∀ u ∈ before, u < 0x10000) :
    (∀ last, last <:+ before.flatMap encodeUnit → ¬ HighForm last) ↔
      ∀ v ∈ before.getLast?, Utf16.isHigh v = false := by
  constructor
  · intro alone v last
    obtain ⟨others, rfl⟩ := List.getLast?_eq_some_iff.mp last
    rw [Bool.eq_false_iff, Ne, ← highForm_encodeUnit_iff (small v (by simp))]
    exact alone _ ⟨others.flatMap encodeUnit, by simp⟩
  · rintro alone last ⟨rest, split⟩ high
    have bytes : before.flatMap encodeUnit = rest ++ (last ++ []) := by
      rw [List.append_nil, split]
    obtain ⟨others, v, later, rfl, _, rfl, nothing⟩ := exists_surrogate_at small high bytes
    have smaller : ∀ u ∈ later, u < 0x10000 := fun u member => small u (by simp [member])
    obtain rfl := flatMap_encodeUnit_eq_nil smaller nothing.symm
    have isHigh := (highForm_encodeUnit_iff (small v (by simp))).mp high
    rw [alone v (by simp)] at isHigh
    cases isHigh

/-- A surrogate without its other half is so among the bytes, too. -/
theorem flaw_of_unpaired (small : ∀ v ∈ before ++ u :: after, v < 0x10000)
    (unpaired : Utf16.Unpaired before u after) :
    Flaw (before.flatMap encodeUnit) (encodeUnit u ++ after.flatMap encodeUnit) := by
  rw [List.forall_mem_append, List.forall_mem_cons] at small
  rcases unpaired with ⟨high, alone⟩ | ⟨low, alone⟩
  · exact .loneHigh ((highForm_encodeUnit_iff small.2.1).mpr high)
      ((no_lowForm_behind_iff small.2.2).mpr alone)
  · exact .loneLow ((lowForm_encodeUnit_iff small.2.1).mpr low)
      ((no_highForm_before_iff small.1).mpr alone)

theorem Flaw.not_canonical (flaw : Flaw front back) : ¬ Canonical (front ++ back) := by
  rintro ⟨s, form⟩
  have small : ∀ u ∈ Utf16.encode s.toList, u < 0x10000 := fun _ => Utf16.lt_of_mem_encode
  have bytes : (Utf16.encode s.toList).flatMap encodeUnit = front ++ back := form.symm
  cases flaw with
  | headless loose =>
    rw [List.nil_append] at bytes
    rw [← bytes, continued_flatMap_encodeUnit small] at loose
    exact Nat.lt_irrefl 0 loose
  | malformed wrong =>
    obtain ⟨before, u, after, units, rfl, place⟩ := exists_unit_at small wrong.start bytes
    rw [units, List.forall_mem_append, List.forall_mem_cons] at small
    have formed : Form u (encodeUnit u) := form_encodeUnit small.2.1
    obtain ⟨b, others, led, _⟩ := formed.exists_led
    rw [led] at place formed
    obtain ⟨rfl, rfl⟩ := List.cons.inj place
    exact formed.not_malformed (continued_flatMap_encodeUnit small.2.2) wrong
  | loneHigh high alone =>
    obtain ⟨before, u, after, units, rfl, rfl, rfl⟩ := exists_surrogate_at small high bytes
    rw [units, List.forall_mem_append, List.forall_mem_cons] at small
    exact Utf16.not_unpaired units (.inl ⟨(highForm_encodeUnit_iff small.2.1).mp high,
      (no_lowForm_behind_iff small.2.2).mp alone⟩)
  | loneLow low alone =>
    obtain ⟨before, u, after, units, rfl, rfl, rfl⟩ := exists_surrogate_at small low bytes
    rw [units, List.forall_mem_append, List.forall_mem_cons] at small
    exact Utf16.not_unpaired units (.inr ⟨(lowForm_encodeUnit_iff small.2.1).mp low,
      (no_highForm_before_iff small.1).mp alone⟩)

theorem exists_flaw {bytes : List UInt8} (refused : decode bytes = none) :
    ∃ front back, bytes = front ++ back ∧ Flaw front back := by
  cases decoded : decodeUnits bytes with
  | none =>
    rcases exists_malformed decoded with loose | ⟨front, b, rest, rfl, wrong⟩
    · exact ⟨[], bytes, rfl, .headless loose⟩
    · exact ⟨front, b :: rest, rfl, .malformed wrong⟩
  | some units =>
    rw [decode, decoded, Option.bind_some] at refused
    obtain ⟨rfl, small⟩ := decodeUnits_eq_some_iff.mp decoded
    obtain ⟨before, u, after, rfl, unpaired⟩ := Utf16.exists_unpaired refused
    refine ⟨_, _, ?_, flaw_of_unpaired small unpaired⟩
    rw [List.flatMap_append, List.flatMap_cons]

/-- Bytes are refused for what is wrong with them at some place. -/
theorem decode_eq_none_iff_flaw {bytes : List UInt8} :
    decode bytes = none ↔ ∃ front back, bytes = front ++ back ∧ Flaw front back := by
  constructor
  · exact exists_flaw
  · rintro ⟨front, back, rfl, flaw⟩
    exact decode_eq_none_iff.mpr flaw.not_canonical

end Surrogates

theorem bounds_of_mem_encode {cs : List Char} {b : UInt8} (member : b ∈ encode cs) :
    b.toNat ≠ 0 ∧ b.toNat < 0xF0 := by
  obtain ⟨u, unit, inside⟩ := List.mem_flatMap.mp member
  obtain ⟨first, others, form, led⟩ := (form_encodeUnit (Utf16.lt_of_mem_encode unit)).exists_led
  rw [form, List.mem_cons] at inside
  rcases inside with rfl | continuation
  · exact ⟨led.nonzero, led.bounded⟩
  · have bounds := continuation_bounds (led.continuations b continuation)
    omega

end ModifiedUtf8

namespace JavaString

open ModifiedUtf8 (Flaw)

theorem ofBytes_eq_text_iff {bytes : List UInt8} {value : String} :
    ofBytes bytes = text value ↔ bytes = (text value).toBytes := by
  rw [ofBytes_eq_iff]
  exact and_iff_left trivial

theorem ofBytes_eq_raw_iff {bytes : List UInt8} :
    ofBytes bytes = raw bytes ↔ ∃ front back, bytes = front ++ back ∧ Flaw front back := by
  rw [ofBytes_eq_iff, ← ModifiedUtf8.decode_eq_none_iff_flaw, ModifiedUtf8.decode_eq_none_iff]
  exact and_iff_right rfl

/-- Strings are decoded exactly where they are canonical, by any decoder that reads back what is
encoded: bytes are text only if they are its form, a text has one form, without the byte 0 and bytes
from 0xF0 on, and all bytes with a flaw are kept as they are. -/
theorem codec_exact (decoder : List UInt8 → Option String)
    (reads_back : ∀ value : String, decoder (ModifiedUtf8.encode value.toList) = some value) :
    ofBytesBy decoder = ofBytes ∧
    (∀ bytes, (ofBytes bytes).toBytes = bytes) ∧
    (∀ bytes value, ofBytes bytes = text value ↔ bytes = (text value).toBytes) ∧
    (∀ value, ofBytes (text value).toBytes = text value) ∧
    (∀ value other, (text value).toBytes = (text other).toBytes ↔ value = other) ∧
    (∀ value, ∀ b ∈ (text value).toBytes, b ≠ 0 ∧ b < 0xF0) ∧
    ∀ bytes, ofBytes bytes = raw bytes ↔
      ∃ front back, bytes = front ++ back ∧ Flaw front back := by
  have read (value : String) : ofBytes (text value).toBytes = text value :=
    ofBytes_eq_text_iff.mpr rfl
  refine ⟨ofBytesBy_eq reads_back, fun bytes => ?_, fun _ _ => ofBytes_eq_text_iff, read, ?_, ?_,
    fun _ => ofBytes_eq_raw_iff⟩
  · exact (ofBytes_eq_iff.mp rfl).1.symm
  · intro value other
    constructor
    · intro same
      have equal : text value = text other := by rw [← read value, same, read other]
      exact JavaString.text.inj equal
    · rintro rfl
      rfl
  · intro value b member
    have bounds := ModifiedUtf8.bounds_of_mem_encode member
    exact ⟨fun null => bounds.1 (null ▸ rfl), UInt8.lt_iff_toNat_lt.mpr bounds.2⟩

/-- A decoder that takes the zero byte for the character 0, which is not encoded so. -/
def lenient (bytes : List UInt8) : Option String :=
  if bytes = [0] then some "\x00" else (ModifiedUtf8.decode bytes).map String.ofList

theorem lenient_encode (value : String) :
    lenient (ModifiedUtf8.encode value.toList) = some value := by
  have read : ModifiedUtf8.decode (ModifiedUtf8.encode value.toList) = some value.toList :=
    ModifiedUtf8.decode_eq_some_iff.mpr rfl
  have other : ModifiedUtf8.encode value.toList ≠ [0] := by
    intro zero
    rw [zero] at read
    exact absurd read (by simp [ModifiedUtf8.decode, ModifiedUtf8.decodeUnits,
      ModifiedUtf8.decodeUnitsOnto])
  rw [lenient, if_neg other, read, Option.map_some, String.ofList_toList]

/-- What the decoder takes for a text is kept as bytes; in two bytes the character 0 is text. -/
theorem codec_exact_lenient :
    (∀ value, lenient (ModifiedUtf8.encode value.toList) = some value) ∧
      lenient [0] = some "\x00" ∧ ofBytesBy lenient [0] = raw [0] ∧
      ofBytesBy lenient [0x61, 0xC0, 0x80, 0x62] = text "a\x00b" := by
  obtain ⟨same, _, texts, _, _, _, flaws⟩ := codec_exact lenient lenient_encode
  refine ⟨lenient_encode, rfl, ?_, ?_⟩
  · rw [same]
    exact (flaws [0]).mpr ⟨[], [0], rfl, .malformed (.zero rfl)⟩
  · rw [same]
    exact (texts _ "a\x00b").mpr (by decide)

end JavaString

end ClassFormat
