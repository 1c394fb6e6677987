import ClassFormat.Proofs.ClassFile.Refusals
import ClassFormat.Proofs.Pool.Runs
import Mathlib.Logic.Relation

/-!
How a count of slots decides how many constants are read. The constants that fill the slots are
taken and nothing behind them, too few are waited for, and a wide one in the last slot is refused;
the loop that inserts them one by one ends on all bytes. Main statement: `reading_fills`.
-/
namespace ClassFormat.Pool

section Constants

variable {count : UInt16} {cs : List Constant} {bytes : List UInt8}

theorem exists_emits_constants (fit : ∀ c ∈ cs, c.Fits) :
    ∃ bytes, (Writing.all (cs.map Constant.writing)).Emits bytes := by
  induction cs with
  | nil => exact ⟨[], Writing.emits_all_nil_iff.mpr rfl⟩
  | cons c cs ih =>
    obtain ⟨first, later⟩ := List.forall_mem_cons.mp fit
    obtain ⟨front, emits⟩ := Constant.exists_emits_iff.mpr first
    obtain ⟨back, emits'⟩ := ih later
    exact ⟨front ++ back, emits_constants_cons_iff.mpr ⟨front, back, rfl, emits, emits'⟩⟩

theorem reads_of_full (faithful : ∀ c ∈ cs, c.Faithful)
    (emits : (Writing.all (cs.map Constant.writing)).Emits bytes)
    (full : 1 + span cs = count.toNat) : (reading count).Reads bytes (ofConstants cs) := by
  have bound := count.toNat_lt
  have wellFormed : (ofConstants cs).WellFormed :=
    wellFormed_iff.mpr ⟨cs, rfl, by rw [capacity]; omega⟩
  refine reads_iff.mpr ⟨wellFormed, UInt16.toNat_inj.mp ?_, ?_, ?_⟩
  · rw [wellFormed.count_eq_span, constants_ofConstants, full]
  · rw [Faithful, constants_ofConstants]
    exact faithful
  · rw [constants_ofConstants]
    exact emits

theorem refuses_of_overrun {ds : List Constant} {c : Constant} {front back : List UInt8}
    (faithful : ∀ d ∈ ds, d.Faithful) (faithful' : c.Faithful)
    (emits : (Writing.all (ds.map Constant.writing)).Emits front) (emits' : c.writing.Emits back)
    (wide : c.isWide = true) (last : 1 + span ds + 1 = count.toNat) :
    (reading count).Refuses (front ++ back) .constantPoolOverrun := by
  have one : count.toNat - (1 + span ds) = 1 := by omega
  have reads : Constant.reading.Reads back c := Constant.reads_iff_emits.mpr ⟨emits', faithful'⟩
  have stops : Stops (count.toNat - (1 + span ds)) back .constantPoolOverrun :=
    .inr ⟨one, rfl, c, wide, reads⟩
  exact refuses_iff.mpr (.inr ⟨ds, front, back, rfl, faithful, emits, by omega, stops⟩)

/-- Any number of slots can be filled. -/
theorem exists_span_eq (n : Nat) :
    ∃ cs : List Constant, span cs = n ∧ ∀ c ∈ cs, c.Faithful ∧ c.Fits := by
  induction n with
  | zero => exact ⟨[], rfl, by simp⟩
  | succ n ih =>
    obtain ⟨cs, size, each⟩ := ih
    refine ⟨.integer 0 :: cs, ?_, List.forall_mem_cons.mpr ⟨⟨trivial, trivial⟩, each⟩⟩
    rw [span_cons, size, Nat.add_comm]
    rfl

/-- Bytes that further constants would complete are waited for. -/
theorem starves_of_room (faithful : ∀ c ∈ cs, c.Faithful)
    (emits : (Writing.all (cs.map Constant.writing)).Emits bytes)
    (room : 1 + span cs < count.toNat) : (reading count).Starves bytes := by
  obtain ⟨ds, size, each⟩ := exists_span_eq (count.toNat - (1 + span cs))
  obtain ⟨later, emits'⟩ := exists_emits_constants fun d member => (each d member).2
  have missing : later ≠ [] := by
    cases ds with
    | nil =>
      rw [span_nil] at size
      omega
    | cons d ds =>
      obtain ⟨front, back, rfl, first, _⟩ := emits_constants_cons_iff.mp emits'
      exact List.append_ne_nil_of_left_ne_nil (Constant.ne_nil_of_emits first) back
  have reads : (reading count).Reads (bytes ++ later) (ofConstants (cs ++ ds)) := by
    apply reads_of_full
    · intro c member
      rcases List.mem_append.mp member with old | new
      · exact faithful c old
      · exact (each c new).1
    · rw [List.map_append]
      exact Writing.emits_all_append_iff.mpr ⟨bytes, later, rfl, emits, emits'⟩
    · rw [span_append, size]
      omega
  exact reads.starves missing

end Constants

theorem toNat_count_of_insert {p q : Pool} {c : Constant} {index : PoolIndex}
    (done : p.insert c = (.ok index, q)) : q.count.toNat = p.count.toNat + c.width := by
  rcases p.insert_eq c with ⟨room, appended⟩ | ⟨_, failed⟩
  · rw [appended] at done
    cases done
    rw [toNat_count (by rw [size_append]; exact room), toNat_count (by omega), size_append]
  · rw [failed] at done
    cases done

/-- The loop that reads a pool, between two rounds: the pool so far, the number of bytes consumed,
and the bytes that are left. -/
structure Filling where
  pool : Pool
  consumed : Nat
  rest : List UInt8

namespace Filling

variable {count : UInt16} {s t : Filling}

/-- One round: the count is not reached, so the next constant is read and inserted. -/
inductive Round (count : UInt16) (s : Filling) : Filling → Prop where
  | insert {c : Constant} {index : PoolIndex} {pool : Pool} {consumed : Nat} {rest : List UInt8} :
      s.pool.count < count →
      Constant.reading.runFrom s.consumed s.rest = ⟨.ok c, consumed, rest⟩ →
      s.pool.insert c = (.ok index, pool) → Round count s ⟨pool, consumed, rest⟩

/-- There is no further round, and what comes of it. -/
inductive Ends (count : UInt16) (s : Filling) : Reply (List UInt8) Pool → Prop where
  | full : s.pool.count = count → Ends count s ⟨.ok s.pool, s.consumed, s.rest⟩
  | past : count < s.pool.count →
      Ends count s ⟨.error .constantPoolOverrun, s.consumed, s.rest⟩
  | unread {fault : DecodeFault} {consumed : Nat} {rest : List UInt8} :
      s.pool.count < count →
      Constant.reading.runFrom s.consumed s.rest = ⟨.error fault, consumed, rest⟩ →
      Ends count s ⟨.error fault, consumed, rest⟩
  | overflow {c : Constant} {e : PoolError} {pool : Pool} {consumed : Nat} {rest : List UInt8} :
      s.pool.count < count →
      Constant.reading.runFrom s.consumed s.rest = ⟨.ok c, consumed, rest⟩ →
      s.pool.insert c = (.error e, pool) →
      Ends count s ⟨.error .constantPoolOverrun, consumed, rest⟩

/-- A round never brings the count back to a smaller number. -/
theorem Round.raises (h : Round count s t) :
    t.pool.count.toNat = s.pool.count.toNat + 1 ∨
      t.pool.count.toNat = s.pool.count.toNat + 2 := by
  cases h with
  | @insert c _ _ _ _ _ _ done =>
    have raised := toNat_count_of_insert done
    have width := c.width_le
    dsimp only
    omega

theorem Round.lt (h : Round count s t) : s.pool.count.toNat < count.toNat := by
  cases h with
  | insert less => exact UInt16.lt_iff_toNat_lt.mp less

theorem terminates (count : UInt16) : WellFounded fun t s => Round count s t := by
  refine Subrelation.wf ?_ (measure fun s : Filling => count.toNat - s.pool.count.toNat).wf
  intro t s h
  have raised := h.raises
  have less := h.lt
  change count.toNat - t.pool.count.toNat < count.toNat - s.pool.count.toNat
  omega

/-- Insertions in turn are rounds up to the end. The induction is on their number, of which there is
one more than slots are left. -/
theorem exists_ends (s : Filling) (n : Nat) (enough : count.toNat - s.pool.count.toNat < n) :
    ∃ t, Relation.ReflTransGen (Round count) s t ∧
      Ends count t ((insertionsUntil count n s.pool).runFrom s.consumed s.rest) := by
  induction n generalizing s with
  | zero => exact absurd enough (Nat.not_lt_zero _)
  | succ n ih =>
    rw [insertionsUntil]
    by_cases less : s.pool.count < count
    · rw [if_pos less, Reading.runFrom_bind]
      cases read : Constant.reading.runFrom s.consumed s.rest with
      | mk result consumed rest =>
        cases result with
        | error fault => exact ⟨s, .refl, .unread less read⟩
        | ok c =>
          cases inserted : s.pool.insert c with
          | mk outcome pool =>
            cases outcome with
            | error e =>
              simp only [inserted]
              exact ⟨s, .refl, .overflow less read inserted⟩
            | ok index =>
              have round : Round count s ⟨pool, consumed, rest⟩ := .insert less read inserted
              have raised := round.raises
              have short := round.lt
              dsimp only at raised
              obtain ⟨t, rounds, ends⟩ := ih ⟨pool, consumed, rest⟩ (by dsimp only; omega)
              simp only [inserted]
              exact ⟨t, .head round rounds, ends⟩
    · rw [if_neg less]
      by_cases reached : s.pool.count = count
      · rw [if_pos reached]
        exact ⟨s, .refl, .full reached⟩
      · rw [if_neg reached]
        have beyond : count < s.pool.count :=
          UInt16.lt_of_le_of_ne (UInt16.not_lt.mp less) (Ne.symm reached)
        exact ⟨s, .refl, .past beyond⟩

end Filling

/-- A pool is read from as many constants as fill the slots that are announced. A wide constant that
starts in the last of them is refused behind its last byte, whatever the count, and fewer constants
are not enough. The loop that does so comes to an end, since every round raises the count. -/
theorem reading_fills {count : UInt16} (positive : 1 ≤ count.toNat) :
    (∀ cs : List Constant, (∀ c ∈ cs, c.Faithful ∧ c.Fits) →
      ∃ bytes, (Writing.all (cs.map Constant.writing)).toBytes = .ok bytes ∧
        (1 + span cs = count.toNat →
          ∃ indices p, empty.insertAll cs = (.ok indices, p) ∧
            ∀ rest, (reading count).run (bytes ++ rest) = ⟨.ok p, bytes.length, rest⟩) ∧
        (∀ ds c, cs = ds ++ [c] → c.isWide = true → 1 + span ds = count.toNat - 1 →
          ∀ rest, (reading count).run (bytes ++ rest) =
            ⟨.error .constantPoolOverrun, bytes.length, rest⟩) ∧
        (1 + span cs < count.toNat →
          (reading count).run bytes = ⟨.error .truncated, bytes.length, []⟩)) ∧
    (∀ s t, Filling.Round count s t →
      t.pool.count.toNat = s.pool.count.toNat + 1 ∨
        t.pool.count.toNat = s.pool.count.toNat + 2) ∧
    (WellFounded fun t s => Filling.Round count s t) ∧
    ∀ input, ∃ s, Relation.ReflTransGen (Filling.Round count) ⟨empty, 0, input⟩ s ∧
      Filling.Ends count s ((reading count).run input) := by
  refine ⟨?_, fun _ _ => Filling.Round.raises, Filling.terminates count, ?_⟩
  · intro cs each
    have faithful (c : Constant) (member : c ∈ cs) : c.Faithful := (each c member).1
    obtain ⟨bytes, emits⟩ := exists_emits_constants fun c member => (each c member).2
    refine ⟨bytes, Writing.toBytes_eq_ok_iff.mpr emits, ?_, ?_, ?_⟩
    · intro full
      have bound := count.toNat_lt
      have room : empty.slots.size + span cs ≤ capacity := by
        change 1 + span cs ≤ 0xFFFF
        omega
      obtain ⟨indices, inserted, _⟩ := insertAll_of_room room
      refine ⟨indices, ofConstants cs, inserted, fun rest => ?_⟩
      exact Reading.run_eq_ok_iff.mpr ⟨bytes, reads_of_full faithful emits full, rfl, rfl⟩
    · rintro ds c rfl wide last rest
      rw [List.map_append] at emits
      obtain ⟨front, back, rfl, emits', single⟩ := Writing.emits_all_append_iff.mp emits
      obtain ⟨form, none, rfl, emits'', last'⟩ := emits_constants_cons_iff.mp single
      obtain rfl := Writing.emits_all_nil_iff.mp last'
      rw [List.append_nil]
      have refuses : (reading count).Refuses (front ++ form) .constantPoolOverrun :=
        refuses_of_overrun (fun d member => faithful d (List.mem_append_left _ member))
          (faithful c (List.mem_append_right _ List.mem_cons_self)) emits' emits'' wide (by omega)
      rw [Reading.run, Reading.runFrom_of_refuses refuses, Nat.zero_add]
    · intro room
      rw [Reading.run, Reading.runFrom_of_starves (starves_of_room faithful emits room),
        Nat.zero_add]
  · intro input
    have some : count ≠ 0 := by
      rintro rfl
      exact Nat.not_succ_le_zero 0 positive
    have enough : count.toNat - empty.count.toNat < count.toNat := Nat.sub_lt positive Nat.one_pos
    obtain ⟨s, rounds, ends⟩ := Filling.exists_ends ⟨empty, 0, input⟩ count.toNat enough
    rw [reading_eq_insertions, if_neg some]
    exact ⟨s, rounds, ends⟩

def wideLast : List Constant := [.utf8 (.text "A"), .long 7]

def wideLastBytes : List UInt8 :=
  [0x01, 0x00, 0x01, 0x41, 0x05, 0x00, 0x00, 0x00, 0x00, 0x00, 0x00, 0x00, 0x07]

/-- Constants that take three slots, where three, two and four of them are announced. -/
theorem reading_wideLast :
    (reading 4).run (wideLastBytes ++ [0xCA]) = ⟨.ok (ofConstants wideLast), 13, [0xCA]⟩ ∧
      (reading 3).run (wideLastBytes ++ [0xCA]) = ⟨.error .constantPoolOverrun, 13, [0xCA]⟩ ∧
      (reading 5).run wideLastBytes = ⟨.error .truncated, 13, []⟩ := by
  have each : ∀ c ∈ wideLast, c.Faithful ∧ c.Fits := by
    intro c member
    simp only [wideLast, List.mem_cons, List.not_mem_nil, or_false] at member
    rcases member with rfl | rfl
    · exact ⟨trivial, Nat.le_of_ble_eq_true rfl⟩
    · exact ⟨trivial, trivial⟩
  have form : (Writing.all (wideLast.map Constant.writing)).toBytes = .ok wideLastBytes := rfl
  obtain ⟨_, written, full, _⟩ := (reading_fills (by decide : 1 ≤ (4 : UInt16).toNat)).1 _ each
  cases form.symm.trans written
  obtain ⟨_, written, _, overrun, _⟩ :=
    (reading_fills (by decide : 1 ≤ (3 : UInt16).toNat)).1 _ each
  cases form.symm.trans written
  obtain ⟨_, written, _, _, short⟩ := (reading_fills (by decide : 1 ≤ (5 : UInt16).toNat)).1 _ each
  cases form.symm.trans written
  obtain ⟨indices, p, inserted, read⟩ := full rfl
  have built : empty.insertAll wideLast = (.ok [1, 2], ofConstants wideLast) := rfl
  cases built.symm.trans inserted
  exact ⟨read [0xCA], overrun [.utf8 (.text "A")] (.long 7) rfl rfl rfl [0xCA], short (by decide)⟩

end ClassFormat.Pool
