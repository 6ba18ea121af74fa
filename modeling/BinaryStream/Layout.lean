import BinaryStream.Bytes
import BinaryStream.Scalar

/-!
Layouts: a kind of scalar together with the byte order it is stored in, and reading and writing
one at the front of a block of bytes.
-/
namespace BinaryStream

structure Layout where
  order : ByteOrder
  scalar : Scalar
  deriving DecidableEq, Inhabited

namespace Layout

abbrev Value (l : Layout) : Type := l.scalar.Value

def size (l : Layout) : Nat := l.scalar.size

def decode (l : Layout) (bytes : List UInt8) : l.Value := l.scalar.decode l.order bytes

def encode (l : Layout) (value : l.Value) : List UInt8 := l.scalar.encode l.order value

/-- The value of the first `l.size` bytes; a shorter block is a fault. -/
def decodeSlice (l : Layout) (bytes : List UInt8) : Except Fault l.Value := do
  let part ← Bytes.slice bytes 0 l.size
  .ok (l.decode part)

/-- The block with its first `l.size` bytes replaced by a value; a shorter block is a fault. -/
def encodeSlice (l : Layout) (value : l.Value) (block : List UInt8) :
    Except Fault (List UInt8) :=
  Bytes.store block 0 (l.encode value)

/-- The values of consecutive stretches of `l.size` bytes; what is left over is not looked at. -/
def decodeAll (l : Layout) : Nat → List UInt8 → List l.Value
  | 0, _ => []
  | n + 1, bytes => l.decode (bytes.take l.size) :: l.decodeAll n (bytes.drop l.size)

theorem size_pos (l : Layout) : 0 < l.size := by
  obtain ⟨order, scalar⟩ := l
  change 0 < scalar.width.size
  cases scalar.width <;> decide

@[simp] theorem length_encode (l : Layout) (value : l.Value) :
    (l.encode value).length = l.size :=
  Scalar.length_encode _ _ _

theorem decodeSlice_eq (l : Layout) (bytes : List UInt8) :
    l.decodeSlice bytes =
      if l.size ≤ bytes.length then .ok (l.decode (bytes.take l.size)) else .error .bounds := by
  rw [decodeSlice, Bytes.slice, Nat.zero_add]
  split <;> rfl

theorem encodeSlice_eq (l : Layout) (value : l.Value) (block : List UInt8) :
    l.encodeSlice value block =
      if l.size ≤ block.length then .ok (l.encode value ++ block.drop l.size)
      else .error .bounds := by
  rw [encodeSlice, Bytes.store, Bytes.overwrite, l.length_encode, Nat.zero_add]
  rfl

@[simp] theorem length_decodeAll (l : Layout) (n : Nat) (bytes : List UInt8) :
    (l.decodeAll n bytes).length = n := by
  induction n generalizing bytes with
  | zero => rfl
  | succ n ih => simp [decodeAll, ih]

end Layout

end BinaryStream
