import BinaryStream.AccessError
import BinaryStream.Layout
import BinaryStream.Scalar.Text

/-!
Events: what a stream reports while it works. An error is traced where it arises; readers and
writers that are told to log add what they were asked for and what came of it.
-/
namespace BinaryStream

instance decidableEqResult {ε α : Type} [DecidableEq ε] [DecidableEq α] :
    DecidableEq (Except ε α)
  | .ok a, .ok b => if h : a = b then isTrue (h ▸ rfl) else isFalse (h ∘ Except.ok.inj)
  | .error a, .error b => if h : a = b then isTrue (h ▸ rfl) else isFalse (h ∘ Except.error.inj)
  | .ok _, .error _ => isFalse nofun
  | .error _, .ok _ => isFalse nofun

inductive Event where
  | refused (error : AccessError)
  /-- A scalar was read, at the current position or at `offset`. -/
  | scalar (layout : Layout) (offset : Option Nat) (result : Except AccessError layout.Value)
  | readBits (count : Nat) (result : Except AccessError UInt64)
  | peekBits (count : Nat) (result : Except AccessError UInt64)
  | skipBits (count : Nat)
  /-- A read of a counting reader, with its total after it. -/
  | countedRead (count : Nat) (value : UInt64) (total : Nat)
  | countedSkip (count total : Nat)
  /-- A write of a counting writer: the whole word and how many of its bits were asked for and
  taken. -/
  | countedWrite (value : UInt64) (count written total : Nat)
  deriving DecidableEq

namespace Event

/-- A word in hexadecimal, at least sixteen characters with its mark. -/
def hexWord (value : UInt64) : String :=
  let digits := Nat.toDigits 16 value.toNat
  "0x" ++ String.ofList (List.replicate (14 - digits.length) '0' ++ digits)

def describeResult {α : Type} (describe : α → String) : Except AccessError α → String
  | .ok value => s!"Ok({describe value})"
  | .error error => s!"Err({error.describe})"

def render : Event → String
  | .refused (.outOfRange offset size length) =>
    s!"TRACE access out of range offset={offset} size={size} length={length}"
  | .refused (.malformed offset reason) =>
    s!"TRACE malformed data offset={offset} reason=\"{reason.message}\""
  | .scalar layout none result =>
    s!"DEBUG get<{layout.order.selector}, {layout.scalar.typeName}>(): " ++
      describeResult layout.scalar.render result
  | .scalar layout (some offset) result =>
    s!"DEBUG pget<{layout.order.selector}, {layout.scalar.typeName}>({offset}): " ++
      describeResult layout.scalar.render result
  | .readBits count result =>
    s!"DEBUG read_bits({count}): " ++ describeResult (toString ·.toNat) result
  | .peekBits count result =>
    s!"DEBUG peek_bits({count}): " ++ describeResult (toString ·.toNat) result
  | .skipBits count => s!"DEBUG skip_bits({count})"
  | .countedRead count value total =>
    s!"DEBUG read_bits({count}) = {hexWord value} (total = {total})"
  | .countedSkip count total => s!"DEBUG skip_bits({count}) (total = {total})"
  | .countedWrite value count written total =>
    s!"DEBUG write_bits({hexWord value}, {count}) = {written} (total = {total})"

end Event

end BinaryStream
