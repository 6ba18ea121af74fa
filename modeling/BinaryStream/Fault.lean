/-!
Faults: uses of the library that break a rule its caller has to keep, or that ask for more than a
machine has. A fault carries no recoverable information; some have a text.
-/
namespace BinaryStream

inductive Fault where
  | decodeWidth (bytes : Nat)
  /-- A signed integer of no bytes, which has no sign. -/
  | decodeEmpty
  | encodeWidth (bytes : Nat)
  | readWidth (bits : Nat)
  | writeWidth (bits : Nat)
  /-- A traversal that would never move. -/
  | zeroStride
  /-- A sign bit outside of a 64-bit word. -/
  | signWidth (bits : Nat)
  /-- A byte or a slice outside of its block. -/
  | bounds
  | overflow
  | capacity
  deriving DecidableEq, Inhabited

/-- The text of a fault, for those that say more than that they happened. -/
def Fault.message : Fault → Option String
  | .decodeWidth bytes => some s!"cannot decode {bytes} bytes"
  | .decodeEmpty => some "cannot decode an empty integer"
  | .encodeWidth bytes => some s!"cannot encode {bytes} bytes"
  | .readWidth bits => some s!"cannot read {bits} bits at once"
  | .writeWidth bits => some s!"cannot write {bits} bits at once"
  | .zeroStride => some "the stride must be positive"
  | .signWidth _ | .bounds | .overflow | .capacity => none

end BinaryStream
