import BinaryStream.Layout
import BinaryStream.Scalar.Text

/-!
Cells: the stored bytes of one scalar, of exactly the layout's size. A cell converts only when a
value is put into it or taken out, and two cells are equal when their bytes are.
-/
namespace BinaryStream

structure Cell (l : Layout) where
  bytes : List UInt8
  length_bytes : bytes.length = l.size
  deriving DecidableEq

namespace Cell

variable {l : Layout}

/-- A cell that stores `value`. -/
def ofValue (l : Layout) (value : l.Value) : Cell l :=
  ⟨l.encode value, l.length_encode value⟩

/-- A cell with exactly these bytes. -/
def ofBytes? (l : Layout) (bytes : List UInt8) : Option (Cell l) :=
  if h : bytes.length = l.size then some ⟨bytes, h⟩ else none

/-- A cell with the first bytes of a block that is long enough. -/
def ofSlice? (l : Layout) (block : List UInt8) : Option (Cell l) :=
  ofBytes? l (block.take l.size)

/-- A cell of zero bytes. -/
def zero (l : Layout) : Cell l := ⟨List.replicate l.size 0, List.length_replicate⟩

def get (cell : Cell l) : l.Value := l.decode cell.bytes

def set (_ : Cell l) (value : l.Value) : Cell l := ofValue l value

def describe (cell : Cell l) : String :=
  s!"{l.order.selector}({l.scalar.render cell.get})"

instance : Inhabited (Cell l) := ⟨zero l⟩

end Cell

end BinaryStream
