import ClassFormat.Fault

/-!
Decoders as data. A reading says how many bytes it wants next and how it goes on with them, so that
one decoder runs on a list of bytes as well as on a source that hands them out in pieces.
-/
namespace ClassFormat

inductive Reading (α : Type) where
  | done (value : α)
  | refuse (fault : DecodeFault)
  | take (n : Nat) (next : List UInt8 → Reading α)

structure Reply (ι α : Type) where
  result : Except DecodeFault α
  consumed : Nat
  rest : ι

namespace Reading

variable {α β : Type}

def bind : Reading α → (α → Reading β) → Reading β
  | done value, f => f value
  | refuse fault, _ => refuse fault
  | take n next, f => take n fun bytes => (next bytes).bind f

instance : Monad Reading where
  pure := done
  bind := bind

def bytes (n : Nat) : Reading (List UInt8) := take n done

/-- The widest value that is moved through a stream. -/
def streamWidth : Nat := 8

/-- A type that is too wide is refused before any byte is wanted. -/
def value (α : Type) [FixedWidth α] : Reading α :=
  if FixedWidth.width α ≤ streamWidth then
    take (FixedWidth.width α) fun bytes =>
      match FixedWidth.extract bytes with
      | .ok v => done v
      | .error mismatch => refuse (.sizeMismatch mismatch)
  else refuse (.sizeMismatch (.tooSmall (FixedWidth.width α) streamWidth))

/-- The items of `found` came before, the last of them first. -/
def repeatOnto (item : Reading α) : Nat → List α → Reading (List α)
  | 0, found => done found.reverse
  | n + 1, found => item.bind fun v => repeatOnto item n (v :: found)

def table (n : Nat) (item : Reading α) : Reading (List α) := repeatOnto item n []

/-- A request for more bytes than are left takes them all. -/
def runFrom : Reading α → Nat → List UInt8 → Reply (List UInt8) α
  | done v, consumed, input => ⟨.ok v, consumed, input⟩
  | refuse fault, consumed, input => ⟨.error fault, consumed, input⟩
  | take n next, consumed, input =>
    let (chunk, rest) := input.splitAt n
    if chunk.length = n then (next chunk).runFrom (consumed + n) rest
    else ⟨.error .truncated, consumed + chunk.length, []⟩

def run (r : Reading α) (input : List UInt8) : Reply (List UInt8) α := r.runFrom 0 input

theorem runFrom_bind (r : Reading α) (f : α → Reading β) (consumed : Nat) (input : List UInt8) :
    (r.bind f).runFrom consumed input =
      match r.runFrom consumed input with
      | ⟨.ok v, consumed, rest⟩ => (f v).runFrom consumed rest
      | ⟨.error fault, consumed, rest⟩ => ⟨.error fault, consumed, rest⟩ := by
  induction r generalizing consumed input with
  | done v => rfl
  | refuse fault => rfl
  | take n next ih =>
    simp only [bind, runFrom]
    by_cases enough : (input.splitAt n).1.length = n
    · rw [if_pos enough, if_pos enough, ih]
    · rw [if_neg enough, if_neg enough]

/-- Each reading starts where the one before it stopped, whether or not that succeeded. -/
def runEach : List (Reading α) → List UInt8 → List (Reply (List UInt8) α)
  | [], _ => []
  | r :: rs, input => r.run input :: runEach rs (r.run input).rest

end Reading

end ClassFormat
