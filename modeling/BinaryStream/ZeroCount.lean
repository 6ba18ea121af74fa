import BinaryStream.Fault

/-! The zero bytes among those at positions `0`, `stride`, `2 * stride` and so on. -/
namespace BinaryStream

/-- Counts the zeros among every byte that follows `gap` others, from the first byte on. -/
def sampleZeroes (gap : Nat) : List UInt8 → Nat
  | [] => 0
  | b :: rest => (if b = 0 then 1 else 0) + sampleZeroes gap (rest.drop gap)
termination_by bytes => bytes.length
decreasing_by simp only [List.length_drop, List.length_cons]; omega

/-- The sampled zeros of a block of bytes; a stride of zero would never leave its start. -/
def countZeroes (bytes : List UInt8) (stride : Nat) : Except Fault Nat :=
  if stride = 0 then .error .zeroStride else .ok (sampleZeroes (stride - 1) bytes)

end BinaryStream
