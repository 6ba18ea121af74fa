import BinaryStream.Action

/-!
Buffers of bytes that grow. A sequential write appends; a positional one overwrites, and what lies
between the old end and its range is filled with zeros, also when the range is empty. No write is
refused, but a buffer too large for one block of memory is a fault, which changes nothing.
-/
namespace BinaryStream

structure ByteBuffer where
  bytes : List UInt8
  deriving DecidableEq, Inhabited

namespace ByteBuffer

variable {ε : Type}

def empty : ByteBuffer := ⟨[]⟩

/-- An empty buffer with room for `capacity` bytes, which no later answer shows. -/
def withCapacity (capacity : Nat) : Except Fault ByteBuffer :=
  if capacity < Size.blockLimit then .ok empty else .error .capacity

def size (b : ByteBuffer) : Nat := b.bytes.length

/-- Changes the content to one of `size` bytes, which memory has to be able to hold. -/
def resize (size : Nat) (change : List UInt8 → List UInt8) : Action ByteBuffer ε Unit :=
  if size < Size.blockLimit then Action.modify fun b => ⟨change b.bytes⟩
  else Action.fault .capacity

/-- Pads the buffer to `size` bytes; a buffer as long already stays as it is. -/
def extendTo (size : Nat) (fill : UInt8) : Action ByteBuffer ε Unit := do
  let b ← Action.get
  if b.size < size then resize size (Bytes.padTo · size fill) else pure ()

/-- Appends `count` copies of `fill`. -/
def extendBy (count : Nat) (fill : UInt8) : Action ByteBuffer ε Unit := do
  let b ← Action.get
  match Size.add? b.size count with
  | none => Action.fault .overflow
  | some size => resize size (Bytes.padTo · size fill)

def write (payload : List UInt8) : Action ByteBuffer ε Unit := do
  let b ← Action.get
  resize (b.size + payload.length) (· ++ payload)

/-- Writes at `offset`, after padding with zeros to the end of the range. -/
def writeAt (offset : Nat) (payload : List UInt8) : Action ByteBuffer ε Unit := do
  match Size.add? offset payload.length with
  | none => Action.fault .overflow
  | some stop =>
    extendTo stop 0
    let b ← Action.get
    let bytes ← Action.ofExcept (Bytes.store b.bytes offset payload)
    Action.modify fun _ => ⟨bytes⟩

def put (l : Layout) (value : l.Value) : Action ByteBuffer ε Unit := write (l.encode value)

def putAt (l : Layout) (offset : Nat) (value : l.Value) : Action ByteBuffer ε Unit :=
  writeAt offset (l.encode value)

def setByte (index : Nat) (byte : UInt8) : Action ByteBuffer ε Unit := do
  let b ← Action.get
  let bytes ← Action.ofExcept (Bytes.store b.bytes index [byte])
  Action.modify fun _ => ⟨bytes⟩

def reset : Action ByteBuffer ε Unit := Action.modify fun _ => empty

def writeText (text : String) : Action ByteBuffer ε Unit := write (Bytes.ofText text)

def writeParts : List String → Action ByteBuffer ε Unit
  | [] => pure ()
  | part :: rest => do
    writeText part
    writeParts rest

def describe (b : ByteBuffer) : String :=
  s!"ByteWriterVec \x7b data: {Bytes.describe b.bytes} \x7d"

inductive Command where
  | write (payload : List UInt8)
  | writeAt (offset : Nat) (payload : List UInt8)
  | put (layout : Layout) (value : layout.Value)
  | putAt (layout : Layout) (offset : Nat) (value : layout.Value)
  | extendTo (size : Nat) (fill : UInt8)
  | extendBy (count : Nat) (fill : UInt8)
  | setByte (index : Nat) (byte : UInt8)
  | reset
  | writeText (text : String)
  | writeParts (parts : List String)
  deriving DecidableEq

def Command.run : Command → Action ByteBuffer Empty Unit
  | .write payload => ByteBuffer.write payload
  | .writeAt offset payload => ByteBuffer.writeAt offset payload
  | .put layout value => ByteBuffer.put layout value
  | .putAt layout offset value => ByteBuffer.putAt layout offset value
  | .extendTo size fill => ByteBuffer.extendTo size fill
  | .extendBy count fill => ByteBuffer.extendBy count fill
  | .setByte index byte => ByteBuffer.setByte index byte
  | .reset => ByteBuffer.reset
  | .writeText text => ByteBuffer.writeText text
  | .writeParts parts => ByteBuffer.writeParts parts

end ByteBuffer

end BinaryStream
