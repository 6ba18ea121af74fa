import BinaryStream.Action

/-!
Cursors over a block of bytes. A cursor sees a window of its block, which can only shrink; positions
and sizes count bytes from the window's start.

Strict operations refuse a range that is not inside the window. Tolerant ones clamp it to the window
and always succeed. A refused operation changes nothing.
-/
namespace BinaryStream

structure ByteCursor where
  /-- The whole block, of which the window is a part. -/
  data : List UInt8
  start : Nat
  /-- The bytes of the window. -/
  length : Nat
  position : Nat
  deriving DecidableEq, Inhabited

namespace ByteCursor

variable {σ : Type}

def ofBytes (data : List UInt8) : ByteCursor := ⟨data, 0, data.length, 0⟩

/-- A cursor at a byte of a block; it may stand at the end. -/
def openAt (data : List UInt8) (position : Nat) : Action σ AccessError ByteCursor := do
  Action.checkRange position 0 data.length
  pure { ofBytes data with position }

def remaining (c : ByteCursor) : Nat := c.length - c.position

def atEnd (c : ByteCursor) : Bool := c.position == c.length

def visible (c : ByteCursor) : Except Fault (List UInt8) := Bytes.slice c.data c.start c.length

def part (c : ByteCursor) (offset size : Nat) : Except Fault (List UInt8) := do
  let window ← c.visible
  Bytes.slice window offset size

def rest (c : ByteCursor) : Except Fault (List UInt8) := do
  let window ← c.visible
  Bytes.tail window c.position

/-- A range cut down to what of it lies in the window. -/
def clamp (c : ByteCursor) (offset size : Nat) : Nat × Nat :=
  let offset := min offset c.length
  (offset, min size (c.length - offset))

def advance (size : Nat) : Action ByteCursor AccessError Unit := do
  let c ← Action.get
  let position ← Action.ofExcept (Size.sum c.position size)
  Action.modify ({ · with position })

def seek (position : Nat) : Action ByteCursor AccessError Unit := do
  let c ← Action.get
  Action.checkRange position 0 c.length
  Action.modify ({ · with position })

def skip (size : Nat) : Action ByteCursor AccessError Unit := do
  let c ← Action.get
  Action.checkRange c.position size c.length
  advance size

/-- Passes `expected` if the data continues with it, and tells whether it did. -/
def skipIf (expected : List UInt8) : Action ByteCursor AccessError Bool := do
  let c ← Action.get
  let rest ← Action.ofExcept c.rest
  if expected.isPrefixOf rest then
    advance expected.length
    pure true
  else pure false

/-- Shrinks the window to `length` bytes; a position beyond its end moves there. -/
def truncate (length : Nat) : Action ByteCursor AccessError Unit := do
  let c ← Action.get
  if c.length < length then Action.refuse (.outOfRange 0 length c.length)
  else Action.modify fun c => { c with length, position := min c.position length }

def all : Action ByteCursor AccessError (List UInt8) := do
  let c ← Action.get
  Action.ofExcept c.visible

/-! Strict reads. -/

def readAt (offset size : Nat) : Action ByteCursor AccessError (List UInt8) := do
  let c ← Action.get
  Action.checkRange offset size c.length
  Action.ofExcept (c.part offset size)

/-- The next `size` bytes, which are not passed. -/
def peek (size : Nat) : Action ByteCursor AccessError (List UInt8) := do
  let c ← Action.get
  readAt c.position size

/-- The next `size` bytes, which are passed. -/
def read (size : Nat) : Action ByteCursor AccessError (List UInt8) := do
  let bytes ← peek size
  advance size
  pure bytes

def fillAt (offset : Nat) (buffer : List UInt8) : Action ByteCursor AccessError (List UInt8) :=
  readAt offset buffer.length

/-- A buffer filled with the next bytes, which are passed. -/
def fill (buffer : List UInt8) : Action ByteCursor AccessError (List UInt8) :=
  read buffer.length

/-! Tolerant reads. -/

def readUpToAt (offset size : Nat) : Action ByteCursor AccessError (List UInt8) := do
  let c ← Action.get
  let (offset, size) := c.clamp offset size
  Action.ofExcept (c.part offset size)

/-- Up to `size` bytes from the position on, which are passed. -/
def readUpTo (size : Nat) : Action ByteCursor AccessError (List UInt8) := do
  let c ← Action.get
  let (offset, size) := c.clamp c.position size
  let bytes ← Action.ofExcept (c.part offset size)
  let position ← Action.ofExcept (Size.sum offset size)
  Action.modify ({ · with position })
  pure bytes

/-- How many bytes of a buffer were filled from `offset`, and the buffer. -/
def fillUpToAt (offset : Nat) (buffer : List UInt8) :
    Action ByteCursor AccessError (Nat × List UInt8) := do
  let c ← Action.get
  let (offset, size) := c.clamp offset buffer.length
  let bytes ← Action.ofExcept (c.part offset size)
  let filled ← Action.ofExcept (Bytes.store buffer 0 bytes)
  pure (size, filled)

/-- How many bytes of a buffer were filled with the next ones, which are passed, and the buffer. -/
def fillUpTo (buffer : List UInt8) : Action ByteCursor AccessError (Nat × List UInt8) := do
  let c ← Action.get
  let (size, filled) ← fillUpToAt c.position buffer
  advance size
  pure (size, filled)

def describe (c : ByteCursor) : String :=
  s!"ByteReader \x7b data: {Bytes.describe c.data}, start: {c.start}, length: {c.length}, " ++
    s!"offset: {c.position} \x7d"

end ByteCursor

end BinaryStream
