import BinaryStream.ByteCursor.Basic

/-! Typed reads of a byte cursor: one scalar, or an array of them under a single check. -/
namespace BinaryStream.ByteCursor

/-- The scalar at `offset`. -/
def getAt (l : Layout) (offset : Nat) : Action ByteCursor AccessError l.Value := do
  let bytes ← readAt offset l.size
  Action.ofExcept (l.decodeSlice bytes)

/-- The next scalar, which is passed. -/
def get (l : Layout) : Action ByteCursor AccessError l.Value := do
  let c ← Action.get
  let value ← getAt l c.position
  advance l.size
  pure value

/-- `count` consecutive scalars at `offset`; an array whose size is no word is refused as one of the
largest size. -/
def getArrayAt (l : Layout) (offset count : Nat) :
    Action ByteCursor AccessError (List l.Value) := do
  let c ← Action.get
  match Size.mul? count l.size with
  | none => Action.refuse (.outOfRange offset Size.top c.length)
  | some size =>
    let bytes ← readAt offset size
    pure (l.decodeAll count bytes)

/-- The next `count` scalars, which are passed. -/
def getArray (l : Layout) (count : Nat) : Action ByteCursor AccessError (List l.Value) := do
  let c ← Action.get
  let values ← getArrayAt l c.position count
  let size ← Action.ofExcept (Size.product count l.size)
  advance size
  pure values

end BinaryStream.ByteCursor
