import ClassFormat.Proofs.Pool.Runs

/-!
A pool as a map from indices to constants. Every call has an effect that can be told by lookups
(`refinesMap`), and what can be looked up after a run is what the calls of the run have put there
(`run_refines_map`).
-/
namespace ClassFormat

theorem Constant.width_eq_iff {c d : Constant} : c.width = d.width ↔ c.isWide = d.isWide := by
  rw [width, width]
  cases c.isWide <;> cases d.isWide <;> simp

namespace Pool

theorem get_eq_error {p : Pool} {index : PoolIndex} (missing : ∀ c, p.get index ≠ .ok c) :
    p.get index = .error (.invalidIndex index) := by
  rw [get]
  split
  · rename_i c found
    exact absurd (get_eq_ok_iff.mpr found) (missing c)
  · rfl

/-- Lookups agree when the slots do. -/
theorem get_congr {p q : Pool} {index : PoolIndex}
    (same : q.slots[index.toNat]? = p.slots[index.toNat]?) : q.get index = p.get index := by
  rw [get, get, same]

theorem get_count (p : Pool) (fits : p.slots.size ≤ capacity) :
    p.get p.count = .error (.invalidIndex p.count) := by
  apply get_eq_error
  intro c found
  obtain ⟨inside, _⟩ := Array.getElem?_eq_some_iff.mp (get_eq_ok_iff.mp found)
  rw [toNat_count fits] at inside
  exact Nat.lt_irrefl _ inside

theorem get_append_count {p : Pool} {c : Constant} (fits : p.slots.size ≤ capacity) :
    (p.append c).get p.count = .ok c := by
  rw [get_eq_ok_iff, toNat_count fits, getElem?_append_size]

/-- The gap behind a wide constant holds nothing, as the end of the pool before. -/
theorem get_append_of_ne {p : Pool} {c : Constant} (fits : p.slots.size ≤ capacity)
    {index : PoolIndex} (other : index ≠ p.count) : (p.append c).get index = p.get index := by
  have apart : index.toNat ≠ p.slots.size := by
    rw [← toNat_count fits]
    exact fun same => other (UInt16.toNat_inj.mp same)
  rcases Nat.lt_or_gt_of_ne apart with old | behind
  · exact get_congr (getElem?_append_of_lt old)
  · have outside : ∀ d, p.get index ≠ .ok d := by
      intro d found
      obtain ⟨inside, _⟩ := Array.getElem?_eq_some_iff.mp (get_eq_ok_iff.mp found)
      omega
    have outside' : ∀ d, (p.append c).get index ≠ .ok d := by
      intro d found
      rw [get_eq_ok_iff] at found
      obtain ⟨inside, _⟩ := Array.getElem?_eq_some_iff.mp found
      rw [size_append] at inside
      have bound := c.width_le
      have second : index.toNat = p.slots.size + 1 := by omega
      have wide : c.isWide = true := Constant.isWide_of_width (by omega)
      rw [second, getElem?_append_succ p wide] at found
      cases found
    rw [get_eq_error outside, get_eq_error outside']

/-- The pool with a constant in the place of another. -/
def put (p : Pool) (index : PoolIndex) (c : Constant) : Pool :=
  ⟨p.slots.setIfInBounds index.toNat (.entry c)⟩

theorem size_put (p : Pool) (index : PoolIndex) (c : Constant) :
    (p.put index c).slots.size = p.slots.size :=
  Array.size_setIfInBounds

theorem getElem?_put_of_ne (p : Pool) {index : PoolIndex} (c : Constant) {j : Nat}
    (other : j ≠ index.toNat) : (p.put index c).slots[j]? = p.slots[j]? := by
  rw [put, Array.getElem?_setIfInBounds, if_neg (Ne.symm other)]

theorem get_put_self {p : Pool} {index : PoolIndex} {old : Constant}
    (found : p.get index = .ok old) (c : Constant) : (p.put index c).get index = .ok c := by
  obtain ⟨inside, _⟩ := Array.getElem?_eq_some_iff.mp (get_eq_ok_iff.mp found)
  rw [get_eq_ok_iff, put, Array.getElem?_setIfInBounds, if_pos rfl, if_pos inside]

theorem get_put_of_ne (p : Pool) {index other : PoolIndex} (c : Constant)
    (apart : other ≠ index) : (p.put index c).get other = p.get other :=
  get_congr (p.getElem?_put_of_ne c fun same => apart (UInt16.toNat_inj.mp same))

/-- What a call may do that puts a constant behind all others. -/
structure Appends (p : Pool) (c : Constant) (outcome : Except PoolError PoolIndex × Pool) :
    Prop where
  succeeds_iff : (∃ index, outcome.1 = .ok index) ↔ p.count.toNat + c.width ≤ 65535
  index_eq : ∀ index, outcome.1 = .ok index → index = p.count
  get_new : ∀ index, outcome.1 = .ok index → outcome.2.get index = .ok c
  get_old : ∀ index i, outcome.1 = .ok index → i ≠ index → outcome.2.get i = p.get i
  count_eq : ∀ index, outcome.1 = .ok index →
    outcome.2.count.toNat = p.count.toNat + c.width
  failure : ∀ e, outcome.1 = .error e → e = .overflow ∧ outcome.2 = p

/-- What a call may do that puts a constant in the place of another. -/
structure Replaces (p : Pool) (index : PoolIndex) (c : Constant)
    (outcome : Except PoolError Constant × Pool) : Prop where
  succeeds_iff : (∃ old, outcome.1 = .ok old) ↔ ∃ old, p.get index = .ok old ∧ old.width = c.width
  returns : ∀ old, outcome.1 = .ok old → p.get index = .ok old
  get_new : ∀ old, outcome.1 = .ok old → outcome.2.get index = .ok c
  slots_old : ∀ old, outcome.1 = .ok old → outcome.2.slots.size = p.slots.size ∧
    ∀ j, j ≠ index.toNat → outcome.2.slots[j]? = p.slots[j]?
  failure : ∀ e, outcome.1 = .error e → outcome.2 = p ∧
    (p.get index = .error (.invalidIndex index) ∧ e = .invalidIndex index ∨
      ∃ old, p.get index = .ok old ∧ old.width ≠ c.width ∧
        e = .widthMismatch index old.kind c.kind)

/-- The calls on a pool work as on a map whose keys are handed out in order and never move. -/
structure RefinesMap (p : Pool) : Prop where
  insert : ∀ c, p.Appends c (p.insert c)
  findOrInsert_new : ∀ c, (∀ i d, p.get i = .ok d → d.valueEq c = false) →
    p.Appends c (p.findOrInsert c)
  findOrInsert_old : ∀ c i d, p.get i = .ok d → d.valueEq c = true →
    ∃ i' d', p.get i' = .ok d' ∧ d'.valueEq c = true ∧ p.findOrInsert c = (.ok i', p)
  replace : ∀ index c, p.Replaces index c (p.replace index c)

theorem insert_appends {p : Pool} (fits : p.slots.size ≤ capacity) (c : Constant) :
    p.Appends c (p.insert c) := by
  have counted := toNat_count fits
  rcases p.insert_eq c with ⟨room, done⟩ | ⟨full, failed⟩
  · rw [done]
    have fits' : (p.append c).slots.size ≤ capacity := by
      rw [size_append]
      exact room
    constructor
    · exact ⟨fun _ => counted ▸ room, fun _ => ⟨_, rfl⟩⟩
    · rintro _ ⟨⟩
      rfl
    · rintro _ ⟨⟩
      exact get_append_count fits
    · rintro _ i ⟨⟩ other
      exact get_append_of_ne fits other
    · rintro _ ⟨⟩
      rw [toNat_count fits', size_append, counted]
    · rintro _ ⟨⟩
  · rw [failed]
    constructor
    · constructor
      · rintro ⟨_, ⟨⟩⟩
      · intro room
        rw [counted] at room
        exact absurd full (Nat.not_lt.mpr room)
    · rintro _ ⟨⟩
    · rintro _ ⟨⟩
    · rintro _ _ ⟨⟩
    · rintro _ ⟨⟩
    · rintro _ ⟨⟩
      exact ⟨rfl, rfl⟩

theorem find?_eq_none_iff {p : Pool} (fits : p.slots.size ≤ capacity) {c : Constant} :
    p.find? (·.valueEq c) = none ↔ ∀ i d, p.get i = .ok d → d.valueEq c = false := by
  rw [find?, List.find?_eq_none]
  constructor
  · intro none i d found
    exact Bool.eq_false_iff.mpr (none (i, d) ((mem_entries_iff fits).mpr found))
  · rintro differs ⟨i, d⟩ member
    exact Bool.eq_false_iff.mp (differs i d ((mem_entries_iff fits).mp member))

theorem replace_replaces (p : Pool) (index : PoolIndex) (c : Constant) :
    p.Replaces index c (p.replace index c) := by
  rw [replace]
  cases found : p.get index with
  | error e =>
    have missing : ∀ old, p.get index ≠ .ok old := by
      intro old present
      rw [found] at present
      cases present
    have cause : p.get index = .error (.invalidIndex index) := get_eq_error missing
    rw [found] at cause
    cases cause
    constructor
    · constructor
      · rintro ⟨_, ⟨⟩⟩
      · rintro ⟨old, present, _⟩
        exact absurd present (missing old)
    · rintro _ ⟨⟩
    · rintro _ ⟨⟩
    · rintro _ ⟨⟩
    · rintro _ ⟨⟩
      exact ⟨rfl, .inl ⟨found, rfl⟩⟩
  | ok old =>
    by_cases same : old.isWide = c.isWide
    · dsimp only
      rw [if_pos same]
      constructor
      · exact ⟨fun _ => ⟨old, found, Constant.width_eq_iff.mpr same⟩, fun _ => ⟨old, rfl⟩⟩
      · rintro _ ⟨⟩
        exact found
      · rintro _ ⟨⟩
        exact get_put_self found c
      · rintro _ ⟨⟩
        exact ⟨p.size_put index c, fun _ => p.getElem?_put_of_ne c⟩
      · rintro _ ⟨⟩
    · dsimp only
      rw [if_neg same]
      constructor
      · constructor
        · rintro ⟨_, ⟨⟩⟩
        · rintro ⟨old', present, width⟩
          cases found.symm.trans present
          exact absurd (Constant.width_eq_iff.mp width) same
      · rintro _ ⟨⟩
      · rintro _ ⟨⟩
      · rintro _ ⟨⟩
      · rintro _ ⟨⟩
        have differ : old.width ≠ c.width := fun width => same (Constant.width_eq_iff.mp width)
        exact ⟨rfl, .inr ⟨old, found, differ, rfl⟩⟩

theorem refinesMap {p : Pool} (fits : p.slots.size ≤ capacity) : p.RefinesMap where
  insert := insert_appends fits
  findOrInsert_new c differs := by
    rcases p.findOrInsert_eq c with ⟨i, d, found, _⟩ | ⟨_, inserted⟩
    · rw [(find?_eq_none_iff fits).mpr differs] at found
      cases found
    · rw [inserted]
      exact insert_appends fits c
  findOrInsert_old c i d present equal := by
    rcases p.findOrInsert_eq c with ⟨i', d', found, done⟩ | ⟨none, _⟩
    · have member : (i', d') ∈ p.entries := List.mem_of_find?_eq_some found
      have equal' := List.find?_some found
      exact ⟨i', d', (mem_entries_iff fits).mp member, equal', done⟩
    · rw [(find?_eq_none_iff fits).mp none i d present] at equal
      cases equal
  replace := p.replace_replaces

/-- What a call has done to a pool. -/
inductive Event where
  | appended (index : PoolIndex) (c : Constant)
  | replaced (index : PoolIndex) (c : Constant)
  /-- The call failed, or found its constant in the pool. -/
  | kept
  deriving DecidableEq, Repr

def Event.ofAppend (c : Constant) : Except PoolError PoolIndex → Event
  | .ok index => .appended index c
  | .error _ => .kept

def event (p : Pool) : Edit → Event
  | .insert c => .ofAppend c (p.insert c).1
  | .findOrInsert c =>
    if p.entries.any (·.2.valueEq c) then .kept else .ofAppend c (p.findOrInsert c).1
  | .replace index c =>
    match (p.replace index c).1 with
    | .ok _ => .replaced index c
    | .error _ => .kept

/-- The pool that comes of the empty one by calls in turn. -/
def run (edits : List Edit) : Pool := edits.foldl edit empty

def events (p : Pool) : List Edit → List Event
  | [] => []
  | e :: edits => p.event e :: (p.edit e).events edits

/-- What the calls of a run have done, in order. -/
def history (edits : List Edit) : List Event := empty.events edits

def Event.replacement? (index : PoolIndex) : Event → Option Constant
  | .replaced i c => if i = index then some c else none
  | .appended _ _ | .kept => none

/-- The constant of the last replacement at an index. -/
def lastReplaced (index : PoolIndex) (past : List Event) : Option Constant :=
  past.reverse.findSome? (Event.replacement? index)

theorem lastReplaced_snoc (index : PoolIndex) (past : List Event) (now : Event) :
    lastReplaced index (past ++ [now]) =
      (now.replacement? index).or (lastReplaced index past) := by
  rw [lastReplaced, List.reverse_append, List.reverse_singleton, List.singleton_append,
    List.findSome?_cons, lastReplaced]
  cases now.replacement? index with
  | none => rfl
  | some c => rfl

theorem append_cases (p : Pool) (c : Constant) :
    (p.slots.size + c.width ≤ capacity ∧ Event.ofAppend c (p.insert c).1 = .appended p.count c ∧
      (p.insert c).2 = p.append c) ∨
    (Event.ofAppend c (p.insert c).1 = .kept ∧ (p.insert c).2 = p) := by
  rcases p.insert_eq c with ⟨room, done⟩ | ⟨_, failed⟩
  · exact .inl ⟨room, by rw [done]; rfl, by rw [done]⟩
  · exact .inr ⟨by rw [failed]; rfl, by rw [failed]⟩

/-- All that a call can do. -/
theorem event_cases (p : Pool) (e : Edit) :
    (∃ c, p.slots.size + c.width ≤ capacity ∧ p.event e = .appended p.count c ∧
      p.edit e = p.append c) ∨
    (∃ index c old, p.get index = .ok old ∧ p.event e = .replaced index c ∧
      p.edit e = p.put index c) ∨
    (p.event e = .kept ∧ p.edit e = p) := by
  cases e with
  | insert c =>
    rcases p.append_cases c with ⟨room, event, pool⟩ | kept
    · exact .inl ⟨c, room, event, pool⟩
    · exact .inr (.inr kept)
  | findOrInsert c =>
    have searched : p.entries.any (·.2.valueEq c) = (p.find? (·.valueEq c)).isSome :=
      List.isSome_find?.symm
    rw [event, edit, searched]
    rcases p.findOrInsert_eq c with ⟨index, d, found, done⟩ | ⟨none, inserted⟩
    · rw [found, done]
      exact .inr (.inr ⟨rfl, rfl⟩)
    · rw [none, inserted]
      rcases p.append_cases c with ⟨room, event, pool⟩ | kept
      · exact .inl ⟨c, room, event, pool⟩
      · exact .inr (.inr kept)
  | replace index c =>
    rcases p.replace_eq index c with ⟨old, found, _, done⟩ | ⟨e, failed⟩
    · exact .inr (.inl ⟨index, c, old, found, by rw [event, done], by rw [edit, done]; rfl⟩)
    · exact .inr (.inr ⟨by rw [event, failed], by rw [edit, failed]⟩)

/-- The lookups of a pool are accounted for by what was done to it. -/
structure Accounts (past : List Event) (p : Pool) : Prop where
  size_le : p.slots.size ≤ capacity
  appended : ∀ i c, .appended i c ∈ past → p.get i = .ok ((lastReplaced i past).getD c)
  others : ∀ i, (∀ c, .appended i c ∉ past) → p.get i = .error (.invalidIndex i)
  replaced : ∀ i, (∀ c, .appended i c ∉ past) → lastReplaced i past = none

theorem accounts_empty : Accounts [] empty where
  size_le := by decide
  appended i c member := by cases member
  others i _ := by
    apply get_eq_error
    intro c found
    have member : (i, c) ∈ empty.entries := (mem_entries_iff (by decide)).mpr found
    cases member
  replaced i _ := rfl

theorem Accounts.append {past : List Event} {p : Pool} (h : Accounts past p) {c : Constant}
    (room : p.slots.size + c.width ≤ capacity) :
    Accounts (past ++ [.appended p.count c]) (p.append c) := by
  have last : ∀ i, lastReplaced i (past ++ [.appended p.count c]) = lastReplaced i past :=
    fun i => lastReplaced_snoc i past _
  have before : ∀ i, (∀ d, .appended i d ∉ past ++ [.appended p.count c]) →
      (∀ d, .appended i d ∉ past) ∧ i ≠ p.count := by
    intro i absent
    constructor
    · intro d member
      exact absent d (List.mem_append_left _ member)
    · rintro rfl
      exact absent c (List.mem_append_right _ List.mem_cons_self)
  -- No call of the past has given the new index.
  have fresh : ∀ d, .appended p.count d ∉ past := by
    intro d member
    have found := h.appended p.count d member
    rw [p.get_count h.size_le] at found
    cases found
  constructor
  · rw [size_append]
    exact room
  · intro i d member
    rw [last]
    rcases List.mem_append.mp member with old | new
    · have other : i ≠ p.count := by
        rintro rfl
        exact fresh d old
      rw [get_append_of_ne h.size_le other]
      exact h.appended i d old
    · cases List.mem_singleton.mp new
      rw [h.replaced p.count fresh]
      exact get_append_count h.size_le
  · intro i absent
    obtain ⟨absent', other⟩ := before i absent
    rw [get_append_of_ne h.size_le other]
    exact h.others i absent'
  · intro i absent
    rw [last]
    exact h.replaced i (before i absent).1

theorem Accounts.put {past : List Event} {p : Pool} (h : Accounts past p) {index : PoolIndex}
    {old : Constant} (found : p.get index = .ok old) (c : Constant) :
    Accounts (past ++ [.replaced index c]) (p.put index c) := by
  have last : ∀ i, lastReplaced i (past ++ [.replaced index c]) =
      if index = i then some c else lastReplaced i past := by
    intro i
    rw [lastReplaced_snoc, Event.replacement?]
    split
    · rfl
    · rfl
  have earlier : ∀ i d, .appended i d ∈ past ++ [.replaced index c] ↔ .appended i d ∈ past := by
    simp
  have elsewhere : ∀ i, (∀ d, .appended i d ∉ past) → i ≠ index := by
    rintro i absent rfl
    have missing := h.others i absent
    rw [found] at missing
    cases missing
  constructor
  · rw [size_put]
    exact h.size_le
  · intro i d member
    rw [earlier] at member
    rw [last]
    split
    · rename_i here
      subst here
      exact get_put_self found c
    · rename_i other
      rw [get_put_of_ne p c (Ne.symm other)]
      exact h.appended i d member
  · intro i absent
    simp only [earlier] at absent
    rw [get_put_of_ne p c (elsewhere i absent)]
    exact h.others i absent
  · intro i absent
    simp only [earlier] at absent
    rw [last, if_neg (Ne.symm (elsewhere i absent))]
    exact h.replaced i absent

theorem Accounts.keep {past : List Event} {p : Pool} (h : Accounts past p) :
    Accounts (past ++ [.kept]) p := by
  have last : ∀ i, lastReplaced i (past ++ [.kept]) = lastReplaced i past :=
    fun i => lastReplaced_snoc i past _
  have earlier : ∀ i d, .appended i d ∈ past ++ [.kept] ↔ .appended i d ∈ past := by
    simp
  constructor
  · exact h.size_le
  · intro i d member
    rw [last]
    exact h.appended i d ((earlier i d).mp member)
  · intro i absent
    simp only [earlier] at absent
    exact h.others i absent
  · intro i absent
    simp only [earlier] at absent
    rw [last]
    exact h.replaced i absent

theorem Accounts.edit {past : List Event} {p : Pool} (h : Accounts past p) (e : Edit) :
    Accounts (past ++ [p.event e]) (p.edit e) := by
  rcases p.event_cases e with
    ⟨c, room, event, pool⟩ | ⟨index, c, old, found, event, pool⟩ | ⟨event, pool⟩
  · rw [event, pool]
    exact h.append room
  · rw [event, pool]
    exact h.put found c
  · rw [event, pool]
    exact h.keep

theorem Accounts.events {past : List Event} {p : Pool} (h : Accounts past p) (edits : List Edit) :
    Accounts (past ++ p.events edits) (edits.foldl Pool.edit p) := by
  induction edits generalizing past p with
  | nil =>
    rw [Pool.events, List.append_nil]
    exact h
  | cons e edits ih =>
    have later := ih (h.edit e)
    rw [List.append_assoc, List.singleton_append] at later
    exact later

theorem run_refines_map (edits : List Edit) :
    (run edits).RefinesMap ∧
      (∀ i c, .appended i c ∈ history edits →
        (run edits).get i = .ok ((lastReplaced i (history edits)).getD c)) ∧
      ∀ i, (∀ c, .appended i c ∉ history edits) →
        (run edits).get i = .error (.invalidIndex i) := by
  have accounts : Accounts (history edits) (run edits) := accounts_empty.events edits
  exact ⟨refinesMap accounts.size_le, accounts.appended, accounts.others⟩

end Pool

end ClassFormat
