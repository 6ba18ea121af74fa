import BinaryStream.BitCursor
import BinaryStream.ByteCursor.Basic

/-!
Views: new cursors, over bytes or bits, of a part of a byte cursor's window. A view starts at its
first byte and never shows more than the cursor it was made from.
-/
namespace BinaryStream.ByteCursor

/-- A part of a window: clamped to it, or exact and refused where it does not fit. -/
inductive Range where
  | clamped (offset size : Nat)
  | clampedTail (offset : Nat)
  | exact (offset size : Nat)
  | exactTail (offset : Nat)
  deriving DecidableEq

/-- The offset and the size of a range. -/
def resolve : Range → Action ByteCursor AccessError (Nat × Nat)
  | .clamped offset size => do
    let c ← Action.get
    pure (c.clamp offset size)
  | .clampedTail offset => do
    let c ← Action.get
    pure (c.clamp offset c.length)
  | .exact offset size => do
    let c ← Action.get
    Action.checkRange offset size c.length
    pure (offset, size)
  | .exactTail offset => do
    let c ← Action.get
    Action.checkRange offset 0 c.length
    let size ← Action.ofExcept (Size.difference c.length offset)
    pure (offset, size)

def view (range : Range) : Action ByteCursor AccessError ByteCursor := do
  let (offset, size) ← resolve range
  let c ← Action.get
  let start ← Action.ofExcept (Size.sum c.start offset)
  pure ⟨c.data, start, size, 0⟩

def bitView (range : Range) : Action ByteCursor AccessError BitCursor := do
  let (offset, size) ← resolve range
  let c ← Action.get
  let start ← Action.ofExcept (Size.sum c.start offset)
  let bits ← Action.ofExcept (bitCount size)
  pure ⟨c.data, start, bits, 0⟩

end BinaryStream.ByteCursor
