import ClassFormat.Text.Utf16

/-!
Decoding of UTF-16 code units accepts exactly what encoding produces.
-/
namespace ClassFormat.Utf16

theorem toNat_ofNat {n : Nat} (valid : n.isValidChar) : (Char.ofNat n).toNat = n := by
  rw [Char.ofNat, dif_pos valid]
  rfl

/-- A character below 65536 is a unit by itself, and no surrogate. -/
theorem ofChar_of_lt {c : Char} (small : c.toNat < 0x10000) :
    ofChar c = [c.toNat] ∧ isHigh c.toNat = false ∧ isLow c.toNat = false := by
  have valid : c.toNat.isValidChar := c.valid
  refine ⟨by simp [ofChar, small], ?_, ?_⟩
  · simp only [isHigh, Bool.and_eq_false_iff, decide_eq_false_iff_not]
    rcases valid with low | high <;> omega
  · simp only [isLow, Bool.and_eq_false_iff, decide_eq_false_iff_not]
    rcases valid with low | high <;> omega

theorem ofChar_of_ge {c : Char} (large : 0x10000 ≤ c.toNat) :
    ∃ high low, ofChar c = [high, low] ∧ isHigh high = true ∧ isLow low = true ∧
      pair high low = c := by
  have valid : c.toNat.isValidChar := c.valid
  have bound : c.toNat < 0x110000 := by rcases valid with low | high <;> omega
  refine ⟨_, _, by rw [ofChar, if_neg (Nat.not_lt.mpr large)], ?_, ?_, ?_⟩
  · simp only [isHigh, Bool.and_eq_true, decide_eq_true_eq]
    omega
  · simp only [isLow, Bool.and_eq_true, decide_eq_true_eq]
    omega
  · have value : 0x10000 + (0xD800 + (c.toNat - 0x10000) / 0x400 - 0xD800) * 0x400 +
        (0xDC00 + (c.toNat - 0x10000) % 0x400 - 0xDC00) = c.toNat := by omega
    rw [pair, value, Char.ofNat_toNat]

/-- A unit that is no surrogate is the form of its character. -/
theorem ofChar_ofNat {u : Nat} (small : u < 0x10000) (high : isHigh u = false)
    (low : isLow u = false) : ofChar (Char.ofNat u) = [u] := by
  simp only [isHigh, isLow, Bool.and_eq_false_iff, decide_eq_false_iff_not] at high low
  have valid : u.isValidChar := by
    rw [Nat.isValidChar]
    omega
  have value : (Char.ofNat u).toNat = u := toNat_ofNat valid
  rw [(ofChar_of_lt (value.symm ▸ small)).1, value]

/-- Two surrogates in order are the form of their character. -/
theorem ofChar_pair {u v : Nat} (high : isHigh u = true) (low : isLow v = true) :
    ofChar (pair u v) = [u, v] := by
  simp only [isHigh, isLow, Bool.and_eq_true, decide_eq_true_eq] at high low
  have valid : (0x10000 + (u - 0xD800) * 0x400 + (v - 0xDC00)).isValidChar := by
    rw [Nat.isValidChar]
    omega
  have value : (pair u v).toNat = 0x10000 + (u - 0xD800) * 0x400 + (v - 0xDC00) :=
    toNat_ofNat valid
  have first : 0xD800 + (0x10000 + (u - 0xD800) * 0x400 + (v - 0xDC00) - 0x10000) / 0x400 = u := by
    omega
  have second : 0xDC00 + (0x10000 + (u - 0xD800) * 0x400 + (v - 0xDC00) - 0x10000) % 0x400 = v := by
    omega
  rw [ofChar, value, if_neg (by omega), first, second]

theorem encode_cons (c : Char) (cs : List Char) : encode (c :: cs) = ofChar c ++ encode cs := rfl

theorem decodeOnto_ofChar_append (c : Char) (rest : List Nat) (found : List Char) :
    decodeOnto (ofChar c ++ rest) found = decodeOnto rest (c :: found) := by
  by_cases small : c.toNat < 0x10000
  · obtain ⟨form, high, low⟩ := ofChar_of_lt small
    rw [form]
    cases rest with
    | nil => simp [decodeOnto, high, low, Char.ofNat_toNat]
    | cons v rest => simp [decodeOnto, high, low, Char.ofNat_toNat]
  · obtain ⟨u, v, form, high, low, value⟩ := ofChar_of_ge (Nat.le_of_not_lt small)
    simp [form, decodeOnto, high, low, value]

theorem decodeOnto_encode (cs found : List Char) :
    decodeOnto (encode cs) found = some (found.reverse ++ cs) := by
  induction cs generalizing found with
  | nil => simp [encode, decodeOnto]
  | cons c cs ih =>
    rw [encode_cons, decodeOnto_ofChar_append, ih, List.reverse_cons, List.append_assoc]
    rfl

/-- What is decoded behind the characters found so far is encoded by the units read for it. -/
theorem decodeOnto_sound {units : List Nat} {found cs : List Char}
    (small : ∀ u ∈ units, u < 0x10000) (accepted : decodeOnto units found = some cs) :
    ∃ later, cs = found.reverse ++ later ∧ units = encode later := by
  fun_induction decodeOnto units found with
  | case1 found =>
    cases accepted
    exact ⟨[], by simp, rfl⟩
  | case2 u found => cases accepted
  | case3 u found single =>
    cases accepted
    simp only [Bool.or_eq_true, not_or, Bool.not_eq_true] at single
    refine ⟨[Char.ofNat u], by simp, ?_⟩
    rw [encode_cons, ofChar_ofNat (small u (by simp)) single.1 single.2]
    rfl
  | case4 u v rest found high low ih =>
    obtain ⟨later, rfl, rfl⟩ := ih (fun w member => small w (by simp [member])) accepted
    refine ⟨pair u v :: later, by simp, ?_⟩
    rw [encode_cons, ofChar_pair high low]
    rfl
  | case5 => cases accepted
  | case6 => cases accepted
  | case7 u v rest found high low ih =>
    obtain ⟨later, rfl, units⟩ :=
      ih (fun w member => small w (List.mem_cons_of_mem _ member)) accepted
    refine ⟨Char.ofNat u :: later, by simp, ?_⟩
    rw [encode_cons, ofChar_ofNat (small u (by simp)) (by simpa using high) (by simpa using low),
      units]
    rfl

theorem decode_eq_some_iff {units : List Nat} {cs : List Char} (small : ∀ u ∈ units, u < 0x10000) :
    decode units = some cs ↔ units = encode cs := by
  constructor
  · intro accepted
    obtain ⟨later, rfl, form⟩ := decodeOnto_sound small accepted
    exact form
  · rintro rfl
    exact decodeOnto_encode cs []

theorem lt_of_mem_encode {cs : List Char} {u : Nat} (member : u ∈ encode cs) : u < 0x10000 := by
  obtain ⟨c, _, inside⟩ := List.mem_flatMap.mp member
  by_cases small : c.toNat < 0x10000
  · rw [(ofChar_of_lt small).1, List.mem_singleton] at inside
    exact inside ▸ small
  · obtain ⟨high, low, form, isHigh, isLow, _⟩ := ofChar_of_ge (Nat.le_of_not_lt small)
    simp only [Utf16.isHigh, Utf16.isLow, Bool.and_eq_true, decide_eq_true_eq] at isHigh isLow
    rw [form, List.mem_cons, List.mem_singleton] at inside
    rcases inside with rfl | rfl
    · omega
    · omega

theorem isLow_of_isHigh {u : Nat} (high : isHigh u = true) : isLow u = false := by
  simp only [isHigh, isLow, Bool.and_eq_true, Bool.and_eq_false_iff, decide_eq_true_eq,
    decide_eq_false_iff_not] at high ⊢
  omega

theorem isHigh_of_isLow {u : Nat} (low : isLow u = true) : isHigh u = false := by
  rw [Bool.eq_false_iff]
  intro high
  rw [isLow_of_isHigh high] at low
  cases low

/-- A high surrogate with no low one behind it, or a low surrogate with no high one before it. -/
def Unpaired (before : List Nat) (u : Nat) (after : List Nat) : Prop :=
  isHigh u = true ∧ (∀ v ∈ after.head?, isLow v = false) ∨
    isLow u = true ∧ (∀ v ∈ before.getLast?, isHigh v = false)

variable {u : Nat} {before after : List Nat}

theorem Unpaired.prepend (front : List Nat) (unpaired : Unpaired before u after)
    (last : ∀ v ∈ front.getLast?, isHigh v = false) : Unpaired (front ++ before) u after := by
  rcases unpaired with high | ⟨low, alone⟩
  · exact .inl high
  · refine .inr ⟨low, fun v member => ?_⟩
    rw [List.getLast?_append, Option.mem_def, Option.or_eq_some_iff] at member
    rcases member with inside | ⟨_, inside⟩
    · exact alone v inside
    · exact last v inside

theorem Unpaired.of_append (front : List Nat) (unpaired : Unpaired (front ++ before) u after) :
    Unpaired before u after := by
  rcases unpaired with high | ⟨low, alone⟩
  · exact .inl high
  · refine .inr ⟨low, fun v member => alone v ?_⟩
    rw [List.getLast?_append, Option.mem_def, Option.or_eq_some_iff]
    exact .inl member

/-- Where decoding refuses, some surrogate has no partner. -/
theorem exists_unpaired {units : List Nat} {found : List Char}
    (refused : decodeOnto units found = none) :
    ∃ before u after, units = before ++ u :: after ∧ Unpaired before u after := by
  fun_induction decodeOnto units found with
  | case1 => cases refused
  | case2 u found surrogate =>
    refine ⟨[], u, [], rfl, ?_⟩
    rcases Bool.or_eq_true_iff.mp surrogate with high | low
    · exact .inl ⟨high, by simp⟩
    · exact .inr ⟨low, by simp⟩
  | case3 => cases refused
  | case4 u v rest found high low ih =>
    obtain ⟨before, w, after, rfl, unpaired⟩ := ih refused
    refine ⟨u :: v :: before, w, after, rfl, unpaired.prepend [u, v] ?_⟩
    simpa using isHigh_of_isLow low
  | case5 u v rest found high other =>
    exact ⟨[], u, v :: rest, rfl, .inl ⟨high, by simpa using other⟩⟩
  | case6 u v rest found _ low => exact ⟨[], u, v :: rest, rfl, .inr ⟨low, by simp⟩⟩
  | case7 u v rest found other _ ih =>
    obtain ⟨before, w, after, units, unpaired⟩ := ih refused
    refine ⟨u :: before, w, after, congrArg (u :: ·) units, unpaired.prepend [u] ?_⟩
    simpa using other

theorem not_unpaired {cs : List Char} (units : encode cs = before ++ u :: after) :
    ¬ Unpaired before u after := by
  induction cs generalizing before with
  | nil => simp [encode] at units
  | cons c cs ih =>
    intro unpaired
    rw [encode_cons] at units
    by_cases small : c.toNat < 0x10000
    · obtain ⟨form, noHigh, noLow⟩ := ofChar_of_lt small
      rw [form] at units
      cases before with
      | nil =>
        obtain ⟨rfl, rfl⟩ := List.cons.inj units
        simp [Unpaired, noHigh, noLow] at unpaired
      | cons v before =>
        obtain ⟨rfl, later⟩ := List.cons.inj units
        exact ih later (Unpaired.of_append [c.toNat] unpaired)
    · obtain ⟨high, low, form, isHigh_high, isLow_low, _⟩ := ofChar_of_ge (Nat.le_of_not_lt small)
      rw [form, List.cons_append, List.singleton_append] at units
      cases before with
      | nil =>
        obtain ⟨rfl, rfl⟩ := List.cons.inj units
        simp [Unpaired, isLow_low, isLow_of_isHigh isHigh_high] at unpaired
      | cons v before =>
        obtain ⟨rfl, later⟩ := List.cons.inj units
        cases before with
        | nil =>
          obtain ⟨rfl, rfl⟩ := List.cons.inj later
          simp [Unpaired, isHigh_high, isHigh_of_isLow isLow_low] at unpaired
        | cons w before =>
          obtain ⟨rfl, behind⟩ := List.cons.inj later
          exact ih behind (Unpaired.of_append [high, low] unpaired)

end ClassFormat.Utf16
