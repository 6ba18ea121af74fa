import BinaryStream.Proofs.ByteRegion
import BinaryStream.Proofs.ChunkList
import BinaryStream.Proofs.ScalarRoundTrip

/-!
Writes as all writers of bytes understand them: bytes as they stand or a typed value, behind what
was written before or at an offset. A buffer, a region and a list of chunks carry out the same write
each in its own way; what they make of it is said here of the payload's bytes alone.
-/
namespace BinaryStream

inductive Payload where
  | raw (bytes : List UInt8)
  | typed (item : Item)

def Payload.bytes : Payload → List UInt8
  | .raw bytes => bytes
  | .typed item => item.encode

inductive Write where
  /-- Where the writer stands, which moves behind the payload. -/
  | next (payload : Payload)
  | placed (offset : Nat) (payload : Payload)

namespace Write

def payload : Write → Payload
  | .next payload | .placed _ payload => payload

def bytes (w : Write) : List UInt8 := w.payload.bytes

/-- Where the payload goes when the writer stands at `position`. -/
def start (position : Nat) : Write → Nat
  | .next _ => position
  | .placed offset _ => offset

def stop (position : Nat) (w : Write) : Nat := w.start position + w.bytes.length

/-- How far the write moves its writer. -/
def advance : Write → Nat
  | .next payload => payload.bytes.length
  | .placed _ _ => 0

end Write

/-! The same write by each of the writers. -/

variable {ε : Type}

def Payload.inBuffer : Payload → Action ByteBuffer ε Unit
  | .raw bytes => ByteBuffer.write bytes
  | .typed item => ByteBuffer.put item.layout item.value

def Payload.inChunks : Payload → Action ChunkList ε Unit
  | .raw bytes => ChunkList.write bytes
  | .typed item => ChunkList.put item.layout item.value

def Payload.inRegion : Payload → Action ByteRegion AccessError Unit
  | .raw bytes => ByteRegion.write bytes
  | .typed item => ByteRegion.put item.layout item.value

def Write.inBuffer : Write → Action ByteBuffer ε Unit
  | .next payload => payload.inBuffer
  | .placed offset (.raw bytes) => ByteBuffer.writeAt offset bytes
  | .placed offset (.typed item) => ByteBuffer.putAt item.layout offset item.value

def Write.inRegion : Write → Action ByteRegion AccessError Unit
  | .next payload => payload.inRegion
  | .placed offset (.raw bytes) => ByteRegion.writeAt offset bytes
  | .placed offset (.typed item) => ByteRegion.putAt item.layout offset item.value

theorem Payload.inBuffer_eq (p : Payload) :
    (p.inBuffer : Action ByteBuffer ε Unit) = ByteBuffer.write p.bytes := by
  cases p <;> rfl

theorem Payload.inChunks_eq (p : Payload) :
    (p.inChunks : Action ChunkList ε Unit) = ChunkList.write p.bytes := by
  cases p <;> rfl

theorem Payload.inRegion_eq (p : Payload) : p.inRegion = ByteRegion.write p.bytes := by
  cases p <;> rfl

theorem Write.inBuffer_placed (offset : Nat) (p : Payload) :
    ((Write.placed offset p).inBuffer : Action ByteBuffer ε Unit) =
      ByteBuffer.writeAt offset p.bytes := by
  cases p <;> rfl

theorem Write.inRegion_placed (offset : Nat) (p : Payload) :
    (Write.placed offset p).inRegion = ByteRegion.writeAt offset p.bytes := by
  cases p <;> rfl

/-! What there is with one more payload behind it. -/

def ByteBuffer.append (b : ByteBuffer) (p : Payload) : ByteBuffer := ⟨b.bytes ++ p.bytes⟩

def ChunkList.append (c : ChunkList) (p : Payload) : ChunkList :=
  ⟨c.chunks ++ [p.bytes], c.size + p.bytes.length⟩

@[simp] theorem ByteBuffer.size_empty : ByteBuffer.empty.size = 0 := rfl

@[simp] theorem ChunkList.size_empty : ChunkList.empty.size = 0 := rfl

@[simp] theorem ByteBuffer.size_append (p : Payload) (b : ByteBuffer) :
    (b.append p).size = b.size + p.bytes.length :=
  List.length_append

theorem Payload.inBuffer_apply (p : Payload) (b : ByteBuffer) :
    (p.inBuffer : Action ByteBuffer ε Unit) b =
      if b.size + p.bytes.length < Size.blockLimit then ⟨.value (), b.append p, []⟩
      else ⟨.fault .capacity, b, []⟩ := by
  rw [p.inBuffer_eq, ByteBuffer.write_apply, ByteBuffer.append]

theorem Payload.inChunks_apply (p : Payload) (c : ChunkList) :
    (p.inChunks : Action ChunkList ε Unit) c =
      if c.size + p.bytes.length < Size.limit then ⟨.value (), c.append p, []⟩
      else ⟨.fault .overflow, c, []⟩ := by
  rw [p.inChunks_eq, ChunkList.write_apply]
  rfl

end BinaryStream
