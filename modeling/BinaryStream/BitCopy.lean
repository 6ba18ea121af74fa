import BinaryStream.BitSink
import BinaryStream.BitSource

/-!
Copies of any number of bits from a source to a sink, in pieces of up to 64. An error stops the
copy: the pieces before it stay copied, and a piece that could not be written stays read. A copy
can be asked of either side; the two say the same.
-/
namespace BinaryStream

variable {τ ε : Type}

/-- Copies `n` bits on behalf of the source. -/
def copyTo [BitSink τ ε] (n : Nat) : Action (BitSource × τ) (CopyError ε) Unit :=
  if n = 0 then pure ()
  else do
    let size := min n 64
    let value ← Action.mapError .read (Action.onFirst (BitSource.readBits size))
    let _ ← Action.mapError .write (Action.onSecond (BitSink.writeBits value size))
    copyTo (n - size)
termination_by n

/-- Copies `n` bits on behalf of the sink. -/
def copyFrom [BitSink τ ε] (n : Nat) : Action (τ × BitSource) (CopyError ε) Unit :=
  if n = 0 then pure ()
  else do
    let size := min n 64
    let value ← Action.mapError .read (Action.onSecond (BitSource.readBits size))
    let _ ← Action.mapError .write (Action.onFirst (BitSink.writeBits value size))
    copyFrom (n - size)
termination_by n

end BinaryStream
