import BinaryStream.Action
import BinaryStream.BitBuffer.Scatter

/-!
Buffers of bits that grow at their end. The bytes are usable at any time: the bits of the last byte
that have not been written are zero, which truncation restores.
-/
namespace BinaryStream.BitBuffer

variable {ε : Type}

def empty : BitBuffer := ⟨[], 0⟩

def size (b : BitBuffer) : Nat := b.data.length * 8 - b.unset

/-- Appends the lowest `count` bits of `value`, most significant first. -/
def writeBits (value : UInt64) (count : Nat) : Action BitBuffer ε Unit := do
  if 64 < count then Action.fault (.writeWidth count)
  else
    let b ← Action.get
    let written ← Action.ofExcept (Scatter.run value ⟨b, count⟩)
    Action.modify fun _ => written

def writeBit (bit : Bool) : Action BitBuffer ε Unit := writeBits bit.toUInt64 1

def reset : Action BitBuffer ε Unit := Action.modify fun _ => empty

/-- The first `bits` bits of a buffer that has as many. -/
def keep (b : BitBuffer) (bits : Nat) : BitBuffer :=
  let bytes := (bits + 7) / 8
  let unset := bytes * 8 - bits
  ⟨Bytes.mapLast (· &&& 0xFF <<< UInt8.ofNat unset) (b.data.take bytes), unset⟩

/-- Keeps only the first `bits` bits. -/
def truncate (bits : Nat) : Action BitBuffer AccessError Unit := do
  let b ← Action.get
  if b.size < bits then Action.refuse (.outOfRange 0 bits b.size)
  else Action.modify (keep · bits)

def describe (b : BitBuffer) : String :=
  s!"BitWriter \x7b data: {Bytes.describe b.data}, last_byte_unset_bits: {b.unset} \x7d"

inductive Command where
  | writeBit (bit : Bool)
  | writeBits (value : UInt64) (count : Nat)
  | truncate (bits : Nat)
  | reset
  deriving DecidableEq

def Command.run : Command → Action BitBuffer AccessError Unit
  | .writeBit bit => BitBuffer.writeBit bit
  | .writeBits value count => BitBuffer.writeBits value count
  | .truncate bits => BitBuffer.truncate bits
  | .reset => BitBuffer.reset

end BinaryStream.BitBuffer
