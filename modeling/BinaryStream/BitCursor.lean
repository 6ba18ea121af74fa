import BinaryStream.Action
import BinaryStream.BitCursor.Gather

/-!
Cursors over the bits of a block of bytes. A cursor sees a window, which starts with a whole byte
and may end inside of one; positions and sizes count bits from its start. A refused request
changes nothing, and a read wider than a word is a fault whatever its range.
-/
namespace BinaryStream

structure BitCursor where
  /-- The whole block, of which the window is a part. -/
  data : List UInt8
  start : Nat
  /-- The bits of the window. -/
  length : Nat
  position : Nat
  deriving DecidableEq, Inhabited

/-- The bits of a number of bytes, when that is a word. -/
def bitCount (bytes : Nat) : Except Fault Nat := Size.product bytes 8

namespace BitCursor

variable {σ : Type}

def ofBytes (data : List UInt8) : Except Fault BitCursor := do
  let bits ← bitCount data.length
  .ok ⟨data, 0, bits, 0⟩

/-- A cursor at a bit of a block; it may stand at the end. -/
def openAt (data : List UInt8) (position : Nat) : Action σ AccessError BitCursor := do
  let c ← Action.ofExcept (ofBytes data)
  Action.checkRange position 0 c.length
  pure { c with position }

def remaining (c : BitCursor) : Nat := c.length - c.position

def atEnd (c : BitCursor) : Bool := c.position == c.length

def extract (c : BitCursor) (position width : Nat) : Except Fault UInt64 := do
  let bytes ← Bytes.tail c.data c.start
  Gather.run bytes ⟨position, width, 0⟩

def seek (position : Nat) : Action BitCursor AccessError Unit := do
  let c ← Action.get
  Action.checkRange position 0 c.length
  Action.modify ({ · with position })

def advance (bits : Nat) : Action BitCursor AccessError Unit := do
  let c ← Action.get
  let position ← Action.ofExcept (Size.sum c.position bits)
  Action.modify ({ · with position })

def skip (bits : Nat) : Action BitCursor AccessError Unit := do
  let c ← Action.get
  Action.checkRange c.position bits c.length
  advance bits

/-- Shrinks the window to `length` bits; a position beyond its end moves there. -/
def truncate (length : Nat) : Action BitCursor AccessError Unit := do
  let c ← Action.get
  if c.length < length then Action.refuse (.outOfRange 0 length c.length)
  else Action.modify fun c => { c with length, position := min c.position length }

/-- The `width` bits at `position`, which does not move the cursor. -/
def readAt (position width : Nat) : Action BitCursor AccessError UInt64 := do
  if 64 < width then Action.fault (.readWidth width)
  else
    let c ← Action.get
    Action.checkRange position width c.length
    Action.ofExcept (c.extract position width)

/-- The next `width` bits, which are not passed. -/
def peek (width : Nat) : Action BitCursor AccessError UInt64 := do
  let c ← Action.get
  readAt c.position width

/-- The next `width` bits, which are passed. -/
def read (width : Nat) : Action BitCursor AccessError UInt64 := do
  let value ← peek width
  advance width
  pure value

def readBit : Action BitCursor AccessError Bool := do
  let value ← read 1
  pure (value != 0)

def tell : Action BitCursor AccessError Nat := do
  let c ← Action.get
  pure c.position

def describe (c : BitCursor) : String :=
  s!"BitReader \x7b data: {Bytes.describe c.data}, start: {c.start}, length: {c.length}, " ++
    s!"bit_index: {c.position} \x7d"

inductive Command where
  | seek (position : Nat)
  | skip (bits : Nat)
  | truncate (length : Nat)
  | readAt (position width : Nat)
  | peek (width : Nat)
  | read (width : Nat)
  | readBit
  | tell
  deriving DecidableEq

inductive Answer where
  | done
  | word (value : UInt64)
  | bit (value : Bool)
  | position (value : Nat)
  deriving DecidableEq

def Command.run : Command → Action BitCursor AccessError Answer
  | .seek position => do BitCursor.seek position; pure .done
  | .skip bits => do BitCursor.skip bits; pure .done
  | .truncate length => do BitCursor.truncate length; pure .done
  | .readAt position width => do let value ← BitCursor.readAt position width; pure (.word value)
  | .peek width => do let value ← BitCursor.peek width; pure (.word value)
  | .read width => do let value ← BitCursor.read width; pure (.word value)
  | .readBit => do let value ← BitCursor.readBit; pure (.bit value)
  | .tell => do let position ← BitCursor.tell; pure (.position position)

end BitCursor

end BinaryStream
