import BinaryStream.Word.Assembly
import BinaryStream.Word.Swap

/-!
Scalars: the kinds of number a stream holds, and their layout in bytes. A value is the bit pattern
of a machine word, which for 24 and 48 bits is the next wider one; floating-point numbers are
their patterns, so no bit of one is ever lost.

Words of full width are loaded as the machine keeps them and swapped when the order asks for it.
The odd widths have no machine word: they are assembled byte by byte and sign-extended.
-/
namespace BinaryStream

inductive Width where
  | w8 | w16 | w24 | w32 | w48 | w64
  deriving DecidableEq, Inhabited

namespace Width

def bits : Width → Nat
  | .w8 => 8 | .w16 => 16 | .w24 => 24 | .w32 => 32 | .w48 => 48 | .w64 => 64

def size : Width → Nat
  | .w8 => 1 | .w16 => 2 | .w24 => 3 | .w32 => 4 | .w48 => 6 | .w64 => 8

/-- The bytes of the machine word that holds it. -/
def valueSize : Width → Nat
  | .w8 => 1 | .w16 => 2 | .w24 => 4 | .w32 => 4 | .w48 => 8 | .w64 => 8

def all : List Width := [.w8, .w16, .w24, .w32, .w48, .w64]

end Width

inductive Scalar where
  | unsigned (width : Width)
  | signed (width : Width)
  | binary32
  | binary64
  deriving DecidableEq, Inhabited

namespace Scalar

def width : Scalar → Width
  | .unsigned width | .signed width => width
  | .binary32 => .w32
  | .binary64 => .w64

def size (t : Scalar) : Nat := t.width.size

def valueSize (t : Scalar) : Nat := t.width.valueSize

abbrev Value (t : Scalar) : Type := BitVec (8 * t.valueSize)

def all : List Scalar :=
  Width.all.flatMap (fun width => [.unsigned width, .signed width]) ++ [.binary32, .binary64]

/-- The short name of a kind: a machine type in lower case, an odd width in upper case. -/
def tag : Scalar → String
  | .unsigned .w24 => "U24"
  | .unsigned .w48 => "U48"
  | .signed .w24 => "I24"
  | .signed .w48 => "I48"
  | .unsigned width => s!"u{width.bits}"
  | .signed width => s!"i{width.bits}"
  | .binary32 => "f32"
  | .binary64 => "f64"

def ofTag? (tag : String) : Option Scalar := all.find? (·.tag == tag)

/-- The least and the greatest integer that the stored bytes hold; a floating-point pattern counts
as an unsigned number. -/
def range (t : Scalar) : Int × Int :=
  match t with
  | .signed width => (-(Nat.pow 2 (width.bits - 1) : Int), Nat.pow 2 (width.bits - 1) - 1)
  | .unsigned _ | .binary32 | .binary64 => (0, Nat.pow 2 t.width.bits - 1)

/-- The number a pattern stands for; a floating-point pattern is read as an unsigned number. -/
def toInt (t : Scalar) (value : t.Value) : Int :=
  match t with
  | .signed _ => value.toInt
  | .unsigned _ | .binary32 | .binary64 => value.toNat

/-- The pattern of a number, reduced to the width of the word that holds it. -/
def ofInt (t : Scalar) (number : Int) : t.Value := BitVec.ofInt (8 * t.valueSize) number

def loadWord (n : Nat) (order : ByteOrder) (bytes : List UInt8) : BitVec (8 * n) :=
  let value := loadLittle (8 * n) bytes
  if order.isSwapped then byteSwap n value else value

def storeWord (n : Nat) (order : ByteOrder) (value : BitVec (8 * n)) : List UInt8 :=
  storeLittle n (if order.isSwapped then byteSwap n value else value)

def decode (t : Scalar) (order : ByteOrder) (bytes : List UInt8) : t.Value :=
  match t with
  | .unsigned .w24 => (assemble order bytes).toUInt32.toBitVec
  | .signed .w24 => (signExtend24 (assemble order bytes).toUInt32).toBitVec
  | .unsigned .w48 => (assemble order bytes).toBitVec
  | .signed .w48 => (signExtend48 (assemble order bytes)).toBitVec
  | t => loadWord t.valueSize order bytes

/-- The `t.size` bytes that store a value; an odd width keeps the low bytes of its word. -/
def encode (t : Scalar) (order : ByteOrder) (value : t.Value) : List UInt8 :=
  match t with
  | .unsigned .w24 | .signed .w24 => disassemble order 3 (UInt32.ofBitVec value).toUInt64
  | .unsigned .w48 | .signed .w48 => disassemble order 6 (UInt64.ofBitVec value)
  | t => storeWord t.valueSize order value

@[simp] theorem length_storeWord (n : Nat) (order : ByteOrder) (value : BitVec (8 * n)) :
    (storeWord n order value).length = n := by
  simp [storeWord]

@[simp] theorem length_encode (t : Scalar) (order : ByteOrder) (value : t.Value) :
    (t.encode order value).length = t.size := by
  rcases t with (_ | _ | _ | _ | _ | _) | (_ | _ | _ | _ | _ | _) | _ | _ <;>
    first | exact length_disassemble _ _ _ | exact length_storeWord _ _ _

end Scalar

end BinaryStream
