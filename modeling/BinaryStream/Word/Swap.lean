/-!
Words and their bytes, least significant byte first as the machine keeps them, and the reversal of
the bytes of a word.
-/
namespace BinaryStream

/-- The word of `w` bits with the given bytes, least significant first. -/
def loadLittle (w : Nat) : List UInt8 → BitVec w
  | [] => 0
  | b :: rest => loadLittle w rest <<< 8 ||| b.toBitVec.setWidth w

/-- The `n` low bytes of a word, least significant first. -/
def storeLittle {w : Nat} : Nat → BitVec w → List UInt8
  | 0, _ => []
  | n + 1, v => UInt8.ofBitVec (v.setWidth 8) :: storeLittle n (v >>> 8)

/-- The word of `n` bytes with the bytes of `v` in reverse. -/
def byteSwap (n : Nat) (v : BitVec (8 * n)) : BitVec (8 * n) :=
  loadLittle (8 * n) (storeLittle n v).reverse

@[simp] theorem length_storeLittle {w : Nat} (n : Nat) (v : BitVec w) :
    (storeLittle n v).length = n := by
  induction n generalizing v with
  | zero => rfl
  | succ n ih => simp [storeLittle, ih]

end BinaryStream
