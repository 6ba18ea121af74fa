import Mathlib.Algebra.Order.Ring.Int
import BinaryStream.Word.SignExtension

/-!
Sign extension is reduction. A field that is shifted to the top of its word and back is the only
number in the signed range of its width that is congruent to the word; what stands above the field
does not count. A number in that range stays what it is however often and however wide it is
extended.
-/
namespace BinaryStream

/-- Moving a field to the top of its word and back copies its top bit. -/
theorem sshiftRight_shiftLeft {w k : Nat} (x : BitVec w) (inside : k ≤ w) :
    (x <<< k).sshiftRight k = (x.setWidth (w - k)).signExtend w := by
  apply BitVec.eq_of_getLsbD_eq
  intro i below
  rw [BitVec.getLsbD_sshiftRight, BitVec.getLsbD_signExtend]
  simp only [BitVec.getLsbD_shiftLeft, BitVec.msb_eq_getLsbD_last, BitVec.getLsbD_setWidth]
  grind

theorem toInt_sshiftRight_shiftLeft {w k : Nat} (x : BitVec w) (inside : k ≤ w) :
    ((x <<< k).sshiftRight k).toInt = (x.toNat : Int).bmod (2 ^ (w - k)) := by
  rw [sshiftRight_shiftLeft x inside, BitVec.toInt_signExtend_of_le (Nat.sub_le w k),
    BitVec.toInt_setWidth]

/-- The number of a signed word is the only one in the signed range congruent to its bits. -/
theorem eq_bmod_two_pow_iff {bits : Nat} (some : 0 < bits) (a n : Int) :
    n = a.bmod (2 ^ bits) ↔
      n % 2 ^ bits = a % 2 ^ bits ∧ -2 ^ (bits - 1) ≤ n ∧ n < 2 ^ (bits - 1) := by
  have half : (2 : Int) ^ bits = 2 * 2 ^ (bits - 1) := by
    rw [← Int.pow_succ', Nat.sub_add_cancel some]
  have power : ((2 ^ bits : Nat) : Int) = 2 ^ bits := Int.natCast_pow 2 _
  rw [eq_comm, Int.bmod_eq_iff (Nat.two_pow_pos _), power,
    Int.emod_eq_emod_iff_emod_sub_eq_zero, ← Int.dvd_iff_emod_eq_zero]
  omega

theorem signExtend_apply {bits : Nat} (value : UInt64) (some : 0 < bits) (within : bits ≤ 64) :
    ∃ signed, signExtend value bits = .ok signed ∧
      signed.toInt = (value.toNat : Int).bmod (2 ^ bits) := by
  have field : 64 - (64 - bits) = bits := Nat.sub_sub_self within
  refine ⟨_, if_pos ⟨some, within⟩, ?_⟩
  exact (toInt_sshiftRight_shiftLeft value.toBitVec (Nat.sub_le _ _)).trans (by rw [field]; rfl)

/-- A number is what its word is extended to. -/
theorem signExtend_eq_ok {bits : Nat} {value : UInt64} {signed : Int64} (some : 0 < bits)
    (within : bits ≤ 64) (number : signed.toInt = (value.toNat : Int).bmod (2 ^ bits)) :
    signExtend value bits = .ok signed := by
  obtain ⟨other, extended, same⟩ := signExtend_apply value some within
  rw [extended, Int64.toInt_inj.mp (same.trans number.symm)]

theorem bmod_congr_of_low_bits {bits : Nat} {value other : UInt64}
    (same : ∀ i < bits, other.toBitVec.getLsbD i = value.toBitVec.getLsbD i) :
    (other.toNat : Int).bmod (2 ^ bits) = (value.toNat : Int).bmod (2 ^ bits) := by
  have low : other.toNat % 2 ^ bits = value.toNat % 2 ^ bits := by
    apply Nat.eq_of_testBit_eq
    intro i
    rw [Nat.testBit_mod_two_pow, Nat.testBit_mod_two_pow]
    by_cases below : i < bits
    · exact congrArg (decide (i < bits) && ·) (same i below)
    · simp [below]
  rw [← Int.emod_bmod, ← Int.natCast_emod, low, Int.natCast_emod, Int.emod_bmod]

/-- A number in the signed range of a width is in that of every wider one, so that extending its
word gives it back. -/
theorem toInt_eq_bmod_of_le {bits wider : Nat} {signed : Int64} (some : 0 < bits)
    (low : -2 ^ (bits - 1) ≤ signed.toInt) (high : signed.toInt < 2 ^ (bits - 1))
    (above : bits ≤ wider) (within : wider ≤ 64) :
    signed.toInt = (signed.toUInt64.toNat : Int).bmod (2 ^ wider) := by
  have range : (2 : Int) ^ (bits - 1) ≤ 2 ^ (wider - 1) :=
    pow_le_pow_right₀ (by decide) (Nat.sub_le_sub_right above 1)
  have divides : (2 : Int) ^ wider ∣ 2 ^ 64 := pow_dvd_pow 2 within
  have word : signed.toInt % 2 ^ 64 = (signed.toUInt64.toNat : Int) % 2 ^ 64 := by
    change signed.toBitVec.toInt % _ = (signed.toBitVec.toNat : Int) % _
    rw [BitVec.toInt_eq_toNat_bmod]
    exact Int.bmod_emod
  refine (eq_bmod_two_pow_iff (Nat.lt_of_lt_of_le some above) _ _).mpr ⟨?_, by omega, by omega⟩
  rw [← Int.emod_emod_of_dvd _ divides, word, Int.emod_emod_of_dvd _ divides]

theorem toInt_signExtend24 (word : UInt32) :
    (signExtend24 word).toInt = (word.toNat : Int).bmod (2 ^ 24) :=
  toInt_sshiftRight_shiftLeft word.toBitVec (k := 8) (by decide)

theorem toInt_signExtend48 (word : UInt64) :
    (signExtend48 word).toInt = (word.toNat : Int).bmod (2 ^ 48) :=
  toInt_sshiftRight_shiftLeft word.toBitVec (k := 16) (by decide)

/-- A field of 1 to 64 bits is extended to the only number in the signed range of its width that is
congruent to the word, whatever the bits above the field; any other width is a fault. The word of
the result, extended as a field of the same or any greater width, gives the result again. The
extensions of 24 and of 48 bits, which have words and shifts of their own, are two of these. -/
theorem signExtend_reduces (value : UInt64) (bits : Nat) :
    (0 < bits → bits ≤ 64 → ∃ signed, signExtend value bits = .ok signed ∧
      (∀ n : Int, n = signed.toInt ↔
        n % 2 ^ bits = value.toNat % 2 ^ bits ∧ -2 ^ (bits - 1) ≤ n ∧ n < 2 ^ (bits - 1)) ∧
      (∀ other : UInt64, (∀ i < bits, other.toBitVec.getLsbD i = value.toBitVec.getLsbD i) →
        signExtend other bits = .ok signed) ∧
      ∀ wider, bits ≤ wider → wider ≤ 64 → signExtend signed.toUInt64 wider = .ok signed) ∧
    (bits = 0 ∨ 64 < bits → signExtend value bits = .error (.signWidth bits)) ∧
    (∀ word : UInt32, ∃ signed, signExtend word.toUInt64 24 = .ok signed ∧
      (signExtend24 word).toInt = signed.toInt) ∧
    ∃ signed, signExtend value 48 = .ok signed ∧ (signExtend48 value).toInt = signed.toInt := by
  refine ⟨?_, ?_, ?_, ?_⟩
  · intro some within
    obtain ⟨signed, extended, number⟩ := signExtend_apply value some within
    obtain ⟨-, low, high⟩ := (eq_bmod_two_pow_iff some _ _).mp number
    refine ⟨signed, extended, ?_, ?_, ?_⟩
    · intro n
      rw [number]
      exact eq_bmod_two_pow_iff some _ n
    · intro other same
      exact signExtend_eq_ok some within (number.trans (bmod_congr_of_low_bits same).symm)
    · intro wider above narrow
      exact signExtend_eq_ok (Nat.lt_of_lt_of_le some above) narrow
        (toInt_eq_bmod_of_le some low high above narrow)
  · intro outside
    exact if_neg (by omega)
  · intro word
    obtain ⟨signed, extended, number⟩ :=
      @signExtend_apply 24 word.toUInt64 (by decide) (by decide)
    exact ⟨signed, extended,
      (toInt_signExtend24 word).trans (by rw [number, UInt32.toNat_toUInt64])⟩
  · obtain ⟨signed, extended, number⟩ := @signExtend_apply 48 value (by decide) (by decide)
    exact ⟨signed, extended, (toInt_signExtend48 value).trans number.symm⟩

/-- One bit under others, extended once and again as a whole word, and a width beyond the word. -/
theorem signExtend_reduces_edges :
    ∃ signed, signExtend 0xFF01 1 = .ok signed ∧ signed.toInt = -1 ∧
      signExtend 1 1 = .ok signed ∧ signExtend signed.toUInt64 64 = .ok signed ∧
      signExtend 0xFF01 65 = .error (.signWidth 65) := by
  obtain ⟨narrow, -⟩ := signExtend_reduces 0xFF01 1
  obtain ⟨signed, extended, unique, same, again⟩ := narrow (by decide) (by decide)
  have negative := (unique (-1)).mpr (by decide)
  exact ⟨signed, extended, negative.symm, same 1 (by decide), again 64 (by decide) (by decide),
    (signExtend_reduces 0xFF01 65).2.1 (by decide)⟩

end BinaryStream
