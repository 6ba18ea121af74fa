import BinaryStream.Decimal.Binary
import BinaryStream.Scalar

/-! The texts of scalar values and of their kinds, as events and descriptions show them. -/
namespace BinaryStream.Scalar

def render (t : Scalar) (value : t.Value) : String :=
  match t with
  | .binary32 => Decimal.binary32.render value.toNat
  | .binary64 => Decimal.binary64.render value.toNat
  | .unsigned _ => toString value.toNat
  | .signed _ => toString value.toInt

/-- The name of a kind in an event; the odd widths are known by their full path. -/
def typeName (t : Scalar) : String :=
  match t.width with
  | .w24 | .w48 => "bincursor::codec::scalar::" ++ t.tag
  | _ => t.tag

end BinaryStream.Scalar
