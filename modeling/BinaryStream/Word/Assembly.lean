import BinaryStream.ByteOrder
import BinaryStream.Word.SignExtension

/-!
Integers of any number of bytes up to eight, put together and taken apart byte by byte in a byte
order that is known only at run time.
-/
namespace BinaryStream

/-- The number with one more byte below it. -/
def appendByte (high : UInt64) (low : UInt8) : UInt64 := high <<< 8 ||| low.toUInt64

/-- The number with the given bytes; of more than eight only the least significant eight count. -/
def assemble : ByteOrder → List UInt8 → UInt64
  | .big, bytes => bytes.foldl appendByte 0
  | .little, bytes => bytes.reverse.foldl appendByte 0

/-- The `n` low bytes of a number, least significant first. -/
def lowBytes : Nat → UInt64 → List UInt8
  | 0, _ => []
  | n + 1, value => value.toUInt8 :: lowBytes n (value >>> 8)

/-- The `n` low bytes of a number in the given order; higher bytes are dropped. -/
def disassemble : ByteOrder → Nat → UInt64 → List UInt8
  | .big, n, value => (lowBytes n value).reverse
  | .little, n, value => lowBytes n value

/-- Reads an unsigned integer of at most eight bytes. -/
def decodeUInt (order : ByteOrder) (bytes : List UInt8) : Except Fault UInt64 :=
  if bytes.length ≤ 8 then .ok (assemble order bytes) else .error (.decodeWidth bytes.length)

/-- Reads a signed integer of one to eight bytes; its sign is the top bit of its bytes. -/
def decodeInt (order : ByteOrder) (bytes : List UInt8) : Except Fault Int64 :=
  if bytes.isEmpty then .error .decodeEmpty
  else do
    let value ← decodeUInt order bytes
    signExtend value (bytes.length * 8)

/-- A buffer with the low bytes of a number in place of its own, least significant first. -/
def overwriteLow : UInt64 → List UInt8 → List UInt8
  | _, [] => []
  | value, _ :: rest => value.toUInt8 :: overwriteLow (value >>> 8) rest

/-- Writes an integer over the bytes of a buffer, of which there are at most eight; the walk starts
at the end where the order has the least significant byte. -/
def overwriteUInt (order : ByteOrder) (value : UInt64) (out : List UInt8) :
    Except Fault (List UInt8) :=
  if out.length ≤ 8 then
    match order with
    | .big => .ok (overwriteLow value out.reverse).reverse
    | .little => .ok (overwriteLow value out)
  else .error (.encodeWidth out.length)

/-- Writes an integer into `n` new bytes. -/
def encodeUInt (order : ByteOrder) (n : Nat) (value : UInt64) : Except Fault (List UInt8) :=
  if n ≤ 8 then overwriteUInt order value (List.replicate n 0) else .error (.encodeWidth n)

/-- The bytes of the buffer only count. -/
theorem overwriteLow_eq (value : UInt64) (out : List UInt8) :
    overwriteLow value out = lowBytes out.length value := by
  induction out generalizing value with
  | nil => rfl
  | cons b rest ih => rw [overwriteLow, ih, List.length_cons, lowBytes]

theorem overwriteUInt_eq (order : ByteOrder) (value : UInt64) (out : List UInt8) :
    overwriteUInt order value out =
      if out.length ≤ 8 then .ok (disassemble order out.length value)
      else .error (.encodeWidth out.length) := by
  cases order <;> simp [overwriteUInt, overwriteLow_eq, disassemble]

@[simp] theorem length_lowBytes (n : Nat) (value : UInt64) : (lowBytes n value).length = n := by
  induction n generalizing value with
  | zero => rfl
  | succ n ih => simp [lowBytes, ih]

@[simp] theorem length_disassemble (order : ByteOrder) (n : Nat) (value : UInt64) :
    (disassemble order n value).length = n := by
  cases order <;> simp [disassemble]

end BinaryStream
