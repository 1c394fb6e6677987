import ClassFormat.Flags.Basic

/-!
Sets of flags as sets of bit numbers: the operations on the bits are those on the sets.
-/
namespace ClassFormat.Flags

variable {o : FlagOwner} {a b : Flags o}

instance : Membership Nat (Flags o) := ⟨fun a i => a.bits.toNat.testBit i = true⟩
instance : HasSubset (Flags o) := ⟨fun a b => ∀ i : Nat, i ∈ a → i ∈ b⟩

instance (i : Nat) (a : Flags o) : Decidable (i ∈ a) :=
  inferInstanceAs (Decidable (a.bits.toNat.testBit i = true))

theorem mem_iff {i : Nat} : i ∈ a ↔ a.bits.toBitVec.getLsbD i = true := by
  rw [← BitVec.testBit_toNat, UInt16.toNat_toBitVec]
  rfl

theorem lt_of_mem {i : Nat} (member : i ∈ a) : i < 16 :=
  BitVec.lt_of_getLsbD (mem_iff.mp member)

theorem eq_iff : a = b ↔ ∀ i : Nat, i ∈ a ↔ i ∈ b := by
  constructor
  · rintro rfl i
    exact Iff.rfl
  · intro same
    have bits : a.bits.toBitVec = b.bits.toBitVec := by
      apply BitVec.eq_of_getLsbD_eq
      intro i _
      exact Bool.eq_iff_iff.mpr (by rw [← mem_iff, ← mem_iff, same i])
    cases a
    cases b
    exact congrArg Flags.mk (UInt16.toBitVec_inj.mp bits)

@[simp] theorem not_mem_empty (i : Nat) : i ∉ (∅ : Flags o) := by
  intro member
  have set : Nat.testBit 0 i = true := member
  rw [Nat.zero_testBit] at set
  cases set

@[simp] theorem mem_inter {i : Nat} : i ∈ a ∩ b ↔ i ∈ a ∧ i ∈ b := by
  rw [mem_iff, mem_iff, mem_iff]
  show (a.bits &&& b.bits).toBitVec.getLsbD i = true ↔ _
  rw [UInt16.toBitVec_and, BitVec.getLsbD_and, Bool.and_eq_true]

@[simp] theorem mem_union {i : Nat} : i ∈ a ∪ b ↔ i ∈ a ∨ i ∈ b := by
  rw [mem_iff, mem_iff, mem_iff]
  show (a.bits ||| b.bits).toBitVec.getLsbD i = true ↔ _
  rw [UInt16.toBitVec_or, BitVec.getLsbD_or, Bool.or_eq_true]

@[simp] theorem mem_sdiff {i : Nat} : i ∈ a \ b ↔ i ∈ a ∧ i ∉ b := by
  rw [mem_iff, mem_iff, mem_iff]
  show (a.bits &&& ~~~b.bits).toBitVec.getLsbD i = true ↔ _
  rw [UInt16.toBitVec_and, BitVec.getLsbD_and, UInt16.toBitVec_not, BitVec.getLsbD_not]
  constructor
  · intro both
    simp only [Bool.and_eq_true, Bool.not_eq_true'] at both
    exact ⟨both.1, by rw [both.2.2]; exact Bool.false_ne_true⟩
  · rintro ⟨left, right⟩
    have inside : i < 16 := BitVec.lt_of_getLsbD left
    rw [left, Bool.eq_false_iff.mpr right, decide_eq_true inside]
    rfl

theorem contains_iff : a.contains b = true ↔ b ⊆ a := by
  rw [contains, beq_iff_eq, eq_iff]
  constructor
  · intro same i member
    exact (mem_inter.mp ((same i).mpr member)).1
  · intro subset i
    rw [mem_inter]
    exact ⟨And.right, fun member => ⟨subset i member, member⟩⟩

instance (a b : Flags o) : Decidable (a ⊆ b) := decidable_of_iff _ contains_iff

theorem isEmpty_iff : a.isEmpty = true ↔ ∀ i : Nat, i ∉ a := by
  have isEmpty_iff_eq : a.isEmpty = true ↔ a = ∅ := by
    rw [isEmpty, beq_iff_eq]
    constructor
    · intro zero
      cases a
      exact congrArg Flags.mk zero
    · rintro rfl
      rfl
  rw [isEmpty_iff_eq, eq_iff]
  constructor
  · intro none i member
    exact not_mem_empty i ((none i).mp member)
  · intro none i
    exact iff_of_false (none i) (not_mem_empty i)

theorem isEmpty_inter_iff : (a ∩ b).isEmpty = true ↔ ∀ i : Nat, i ∈ a → i ∉ b := by
  rw [isEmpty_iff]
  constructor
  · intro none i left right
    exact none i (mem_inter.mpr ⟨left, right⟩)
  · intro apart i both
    exact apart i (mem_inter.mp both).1 (mem_inter.mp both).2

theorem isEmpty_sdiff_iff : (a \ b).isEmpty = true ↔ a ⊆ b := by
  rw [isEmpty_iff]
  constructor
  · intro none i member
    exact Decidable.byContradiction fun missing => none i (mem_sdiff.mpr ⟨member, missing⟩)
  · intro subset i rest
    exact (mem_sdiff.mp rest).2 (subset i (mem_sdiff.mp rest).1)

theorem countP_le_one_iff {α : Type} {p : α → Bool} {xs : List α} (distinct : xs.Nodup) :
    xs.countP p ≤ 1 ↔ ∀ x ∈ xs, ∀ y ∈ xs, p x = true → p y = true → x = y := by
  induction distinct with
  | nil => simp
  | @cons x xs fresh _ ih =>
    by_cases chosen : p x = true
    · have alone : xs.countP p + 1 ≤ 1 ↔ ∀ y ∈ xs, ¬p y = true := by
        rw [← List.countP_eq_zero]
        omega
      rw [List.countP_cons_of_pos chosen, alone]
      constructor
      · intro others y inY z inZ chosenY chosenZ
        have only : ∀ w ∈ x :: xs, p w = true → x = w := by
          intro w inW chosenW
          rcases List.mem_cons.mp inW with rfl | later
          · rfl
          · exact absurd chosenW (others w later)
        rw [← only y inY chosenY, ← only z inZ chosenZ]
      · intro unique y inY chosenY
        exact fresh y inY (unique x List.mem_cons_self y (List.mem_cons_of_mem x inY) chosen
          chosenY)
    · rw [List.countP_cons_of_neg chosen, ih]
      constructor
      · intro unique y inY z inZ chosenY chosenZ
        rcases List.mem_cons.mp inY with rfl | laterY
        · exact absurd chosenY chosen
        rcases List.mem_cons.mp inZ with rfl | laterZ
        · exact absurd chosenZ chosen
        exact unique y laterY z laterZ chosenY chosenZ
      · intro unique y inY z inZ
        exact unique y (List.mem_cons_of_mem x inY) z (List.mem_cons_of_mem x inZ)

theorem size_le_one_iff : a.size ≤ 1 ↔ ∀ i : Nat, i ∈ a → ∀ j : Nat, j ∈ a → i = j := by
  rw [size, countP_le_one_iff List.nodup_range]
  constructor
  · intro unique i inI j inJ
    exact unique i (List.mem_range.mpr (lt_of_mem inI)) j (List.mem_range.mpr (lt_of_mem inJ))
      inI inJ
  · intro unique i _ j _ inI inJ
    exact unique i inI j inJ

/-- Of a single flag all or nothing is missing. -/
theorem sdiff_eq_self (single : a.size ≤ 1) (missing : ¬a ⊆ b) : a \ b = a := by
  rw [size_le_one_iff] at single
  rw [eq_iff]
  intro i
  rw [mem_sdiff]
  refine ⟨And.left, fun member => ⟨member, fun present => missing ?_⟩⟩
  intro j member'
  exact single i member j member' ▸ present

end ClassFormat.Flags
