import ClassFormat.Bytes.Writing

/-!
Sinks for bytes: one that grows as needed, and a buffer of fixed capacity.
-/
namespace ClassFormat

structure Sink where
  written : Array UInt8
  /-- How many more bytes fit; a growing sink has no limit. -/
  room : Option Nat
  deriving DecidableEq, Repr

namespace Sink

def growing : Sink := ⟨#[], none⟩

def bounded (capacity : Nat) : Sink := ⟨#[], some capacity⟩

/-- A chunk that does not fit fills what room there is and stops the writing. -/
def put (s : Sink) (chunk : List UInt8) : Sink × Option EncodeFault :=
  match s.room with
  | none => (⟨s.written ++ chunk, none⟩, none)
  | some room =>
    if chunk.length ≤ room then (⟨s.written ++ chunk, some (room - chunk.length)⟩, none)
    else (⟨s.written ++ chunk.take room, some 0⟩, some .writeFail)

def putAll (s : Sink) : List (List UInt8) → Sink × Option EncodeFault
  | [] => (s, none)
  | chunk :: chunks =>
    match s.put chunk with
    | (s, none) => s.putAll chunks
    | (s, some fault) => (s, some fault)

def run (s : Sink) (w : Writing) : Sink × Option EncodeFault :=
  match s.putAll w.chunks with
  | (s, none) => (s, w.fault)
  | (s, some fault) => (s, some fault)

def runEach (s : Sink) : List Writing → Sink × List (Option EncodeFault)
  | [] => (s, [])
  | w :: ws =>
    let (after, fault) := s.run w
    let (last, faults) := after.runEach ws
    (last, fault :: faults)

/-- A buffer holds zeros in the room that is left. -/
def contents (s : Sink) : List UInt8 := s.written.toList ++ List.replicate (s.room.getD 0) 0

end Sink

end ClassFormat
