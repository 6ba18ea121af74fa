import BinaryStream.BitBuffer

/-!
Destinations of bits. A sink takes up to 64 bits at once and tells how many it took; it either
takes all of them or none. A buffer never fails, a bounded buffer has a limit, and a counting sink
keeps the total of what it passed on.
-/
namespace BinaryStream

class BitSink (τ : Type) (ε : outParam Type) where
  /-- Appends the lowest `count` bits of `value`, most significant first. -/
  writeBits (value : UInt64) (count : Nat) : Action τ ε Nat

instance bufferSink : BitSink BitBuffer Empty where
  writeBits value count := do
    BitBuffer.writeBits value count
    pure count

structure BoundedBitBuffer where
  buffer : BitBuffer
  limit : Nat
  deriving DecidableEq, Inhabited

namespace BoundedBitBuffer

/-- The limit is looked at first; its error is not traced. -/
def writeBits (value : UInt64) (count : Nat) : Action BoundedBitBuffer AccessError Nat := do
  let b ← Action.get
  if b.limit < b.buffer.size + count then
    Action.fail (.outOfRange b.buffer.size count b.limit)
  else fun s =>
    let r := BitBuffer.writeBits value count s.buffer
    ⟨r.outcome.map (fun _ => count), ⟨r.state, s.limit⟩, r.events⟩

def describe (b : BoundedBitBuffer) : String :=
  s!"LimitedBitWriter \x7b inner: {b.buffer.describe}, limit: {b.limit} \x7d"

end BoundedBitBuffer

instance boundedSink : BitSink BoundedBitBuffer AccessError where
  writeBits := BoundedBitBuffer.writeBits

/-- A sink that counts the bits it passes on and, if told to, reports each successful write. -/
structure CountedSink (τ : Type) where
  inner : τ
  count : Nat
  prints : Bool
  deriving DecidableEq, Inhabited

namespace CountedSink

variable {τ ε : Type}

def ofSink (inner : τ) (prints : Bool) : CountedSink τ := ⟨inner, 0, prints⟩

def writeBits [BitSink τ ε] (value : UInt64) (count : Nat) : Action (CountedSink τ) ε Nat :=
  fun s =>
    match BitSink.writeBits value count s.inner with
    | ⟨.value written, inner, log⟩ =>
      let total := s.count + written
      ⟨.value written, ⟨inner, total, s.prints⟩,
        log ++ if s.prints then [.countedWrite value count written total] else []⟩
    | r => r.mapState fun inner => { s with inner }

def describe (ofInner : τ → String) (s : CountedSink τ) : String :=
  s!"CountBitWriter \x7b bit_write: {ofInner s.inner}, bits_written: {s.count} \x7d"

end CountedSink

instance countedSink {τ ε : Type} [BitSink τ ε] : BitSink (CountedSink τ) ε where
  writeBits := CountedSink.writeBits

end BinaryStream
