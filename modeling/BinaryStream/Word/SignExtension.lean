import BinaryStream.Fault

/-!
Sign extension by shifts: the field is moved to the top of its word, so that its sign bit becomes
the word's, and back down with copies of that bit. Bits above the field do not matter.
-/
namespace BinaryStream

/-- The lowest `bits` bits of `value` as a signed number; a field has 1 to 64 bits. -/
def signExtend (value : UInt64) (bits : Nat) : Except Fault Int64 :=
  if 0 < bits ∧ bits ≤ 64 then
    let shift := 64 - bits
    .ok (Int64.ofBitVec ((value.toBitVec <<< shift).sshiftRight shift))
  else .error (.signWidth bits)

/-- The lowest 24 bits of `value` as a signed number. -/
def signExtend24 (value : UInt32) : Int32 :=
  Int32.ofBitVec ((value.toBitVec <<< 8).sshiftRight 8)

/-- The lowest 48 bits of `value` as a signed number. -/
def signExtend48 (value : UInt64) : Int64 :=
  Int64.ofBitVec ((value.toBitVec <<< 16).sshiftRight 16)

end BinaryStream
