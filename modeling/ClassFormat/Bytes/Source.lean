import ClassFormat.Bytes.Reading

/-!
Sources that hand their bytes out in pieces, by a schedule of their own, and may fail at the end. A
call that hands out nothing, although bytes are wanted, is taken for the end of the input.
-/
namespace ClassFormat

inductive Ending where
  | endOfInput
  | unexpectedEnd
  | failure (reason : String)
  deriving DecidableEq, Repr

def Ending.fault : Ending → DecodeFault
  | endOfInput | unexpectedEnd => .truncated
  | failure reason => .readFail reason

structure Source where
  pending : List UInt8
  /-- The most bytes that each call hands out. -/
  limit : Nat → Nat
  calls : Nat
  ending : Ending

namespace Source

def grant (s : Source) (n : Nat) : Nat := min n (s.limit s.calls)

/-- The bytes of `found` came before, the last of them first. -/
def gatherOnto (s : Source) (n : Nat) (found : List UInt8) : List UInt8 × Source :=
  if s.grant n = 0 then (found.reverse, s)
  else if s.pending.isEmpty then (found.reverse, s)
  else
    let (now, later) := s.pending.splitAt (s.grant n)
    let after := { s with pending := later, calls := s.calls + 1 }
    after.gatherOnto (n - s.grant n) (now.reverse ++ found)
termination_by n
decreasing_by simp only [grant] at *; omega

def gather (s : Source) (n : Nat) : List UInt8 × Source := s.gatherOnto n []

def shortage (s : Source) : DecodeFault :=
  if s.pending.isEmpty then s.ending.fault else .truncated

end Source

namespace Reading

def drainFrom {α : Type} : Reading α → Nat → Source → Reply Source α
  | done v, consumed, source => ⟨.ok v, consumed, source⟩
  | refuse fault, consumed, source => ⟨.error fault, consumed, source⟩
  | take n next, consumed, source =>
    let (chunk, rest) := source.gather n
    if chunk.length = n then (next chunk).drainFrom (consumed + n) rest
    else ⟨.error rest.shortage, consumed + chunk.length, rest⟩

def drain {α : Type} (r : Reading α) (source : Source) : Reply Source α := r.drainFrom 0 source

end Reading

end ClassFormat
