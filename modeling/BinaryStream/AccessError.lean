/-!
The errors a stream reports. An error names the range that was asked for, so that the request can be
repeated with other arguments; nothing has moved when it is reported.
-/
namespace BinaryStream

/-- What data can lack to have the shape it is read with. -/
inductive Malformation where
  /-- No zero byte before the end of the window. -/
  | unterminatedString
  deriving DecidableEq, Inhabited

def Malformation.message : Malformation → String
  | .unterminatedString => "unterminated string"

inductive AccessError where
  | outOfRange (offset size length : Nat)
  | malformed (offset : Nat) (reason : Malformation)
  deriving DecidableEq, Inhabited

namespace AccessError

def message : AccessError → String
  | .outOfRange offset size length =>
    s!"range {offset}+{size} is out of range for length {length}"
  | .malformed offset reason => s!"malformed data at offset {offset}: {reason.message}"

def describe : AccessError → String
  | .outOfRange offset size length =>
    s!"OutOfRange \x7b offset: {offset}, size: {size}, length: {length} \x7d"
  | .malformed offset reason =>
    s!"MalformedData \x7b offset: {offset}, reason: \"{reason.message}\" \x7d"

end AccessError

/-- The error of a copy, which says on which side the copy stopped. -/
inductive CopyError (ε : Type) where
  | read (cause : AccessError)
  | write (cause : ε)
  deriving DecidableEq, Inhabited

namespace CopyError

variable {ε : Type}

def message (ofWrite : ε → String) : CopyError ε → String
  | .read cause => s!"Read error while copying: {cause.message}"
  | .write cause => s!"Write error while copying: {ofWrite cause}"

def describe (ofWrite : ε → String) : CopyError ε → String
  | .read cause => s!"ReadError({cause.describe})"
  | .write cause => s!"WriteError({ofWrite cause})"

def causeMessage (ofWrite : ε → String) : CopyError ε → String
  | .read cause => cause.message
  | .write cause => ofWrite cause

end CopyError

end BinaryStream
