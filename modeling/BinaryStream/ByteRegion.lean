import BinaryStream.Action

/-!
Regions of memory of fixed size, written from the start. A write whose range does not lie within the
region is refused and changes neither memory nor position.
-/
namespace BinaryStream

structure ByteRegion where
  memory : List UInt8
  /-- Where the next sequential write goes. -/
  position : Nat
  deriving DecidableEq, Inhabited

namespace ByteRegion

def ofMemory (memory : List UInt8) : ByteRegion := ⟨memory, 0⟩

def capacity (r : ByteRegion) : Nat := r.memory.length

def remaining (r : ByteRegion) : Nat := r.capacity - r.position

def writeAt (offset : Nat) (payload : List UInt8) : Action ByteRegion AccessError Unit := do
  let r ← Action.get
  Action.checkRange offset payload.length r.capacity
  let memory ← Action.ofExcept (Bytes.store r.memory offset payload)
  Action.modify ({ · with memory })

def write (payload : List UInt8) : Action ByteRegion AccessError Unit := do
  let r ← Action.get
  writeAt r.position payload
  Action.modify fun r => { r with position := r.position + payload.length }

def put (l : Layout) (value : l.Value) : Action ByteRegion AccessError Unit :=
  write (l.encode value)

def putAt (l : Layout) (offset : Nat) (value : l.Value) : Action ByteRegion AccessError Unit :=
  writeAt offset (l.encode value)

def describe (r : ByteRegion) : String :=
  s!"ByteWriterSlice \x7b data: {Bytes.describe r.memory}, offset: {r.position} \x7d"

inductive Command where
  | write (payload : List UInt8)
  | writeAt (offset : Nat) (payload : List UInt8)
  | put (layout : Layout) (value : layout.Value)
  | putAt (layout : Layout) (offset : Nat) (value : layout.Value)
  deriving DecidableEq

def Command.run : Command → Action ByteRegion AccessError Unit
  | .write payload => ByteRegion.write payload
  | .writeAt offset payload => ByteRegion.writeAt offset payload
  | .put layout value => ByteRegion.put layout value
  | .putAt layout offset value => ByteRegion.putAt layout offset value

end ByteRegion

end BinaryStream
