/-!
Byte orders. The machine is little endian, so the native order is `little` and the reversed one
`big`; a selector names an order absolutely (`BE`, `LE`) or against the machine (`NE`, `RE`).
-/
namespace BinaryStream

inductive ByteOrder where
  | big
  | little
  deriving DecidableEq, Inhabited

namespace ByteOrder

def native : ByteOrder := .little

def reverse : ByteOrder → ByteOrder
  | .big => .little
  | .little => .big

def reversed : ByteOrder := native.reverse

/-- Values in this order have their bytes swapped on the way to the machine. -/
def isSwapped (order : ByteOrder) : Bool := order != native

def name : ByteOrder → String
  | .big => "Big"
  | .little => "Little"

def ofName? : String → Option ByteOrder
  | "Big" => some .big
  | "Little" => some .little
  | _ => none

/-- The short name of an order; orders named against the machine have none of their own. -/
def selector : ByteOrder → String
  | .big => "BE"
  | .little => "LE"

def ofSelector? : String → Option ByteOrder
  | "BE" => some .big
  | "LE" => some .little
  | "NE" => some native
  | "RE" => some reversed
  | _ => none

@[simp] theorem reverse_reverse (order : ByteOrder) : order.reverse.reverse = order := by
  cases order <;> rfl

theorem isSwapped_iff (order : ByteOrder) : order.isSwapped = true ↔ order = reversed := by
  cases order <;> decide

end ByteOrder

end BinaryStream
