import BinaryStream.BitCursor
import BinaryStream.Proofs.BitList

/-!
Reading a field: pieces cut out of bytes by two shifts, put together, are the numeral of the field's
bits.
-/
namespace BinaryStream

open Bytes

namespace Gather

theorem toNat_piece (b : UInt8) {skipped share : Nat} (some : 0 < share)
    (inside : skipped + share ≤ 8) :
    (b <<< UInt8.ofNat skipped >>> UInt8.ofNat (8 - share)).toNat =
      numeral (((field b.toNat 8).drop skipped).take share) := by
  have up : (UInt8.ofNat skipped).toNat % 8 = skipped := by
    rw [UInt8.toNat_ofNat']
    omega
  have down : (UInt8.ofNat (8 - share)).toNat % 8 = 8 - share := by
    rw [UInt8.toNat_ofNat']
    omega
  have parts : 8 = skipped + (share + (8 - skipped - share)) := by omega
  have cut : ((field b.toNat 8).drop skipped).take share =
      field (b.toNat >>> (8 - skipped - share)) share := by
    rw [parts, field_add, List.drop_left' (length_field _ _), ← parts, field_take]
  rw [cut, numeral_field, UInt8.toNat_shiftRight, UInt8.toNat_shiftLeft, up, down]
  apply Nat.eq_of_testBit_eq
  intro i
  rw [Nat.testBit_shiftRight, Nat.testBit_mod_two_pow, Nat.testBit_shiftLeft,
    Nat.testBit_mod_two_pow, Nat.testBit_shiftRight]
  by_cases below : i < share
  · have place : 8 - share + i - skipped = 8 - skipped - share + i := by omega
    have first : 8 - share + i < 8 := by omega
    have second : skipped ≤ 8 - share + i := by omega
    simp [below, place, first, second]
  · have first : ¬ 8 - share + i < 8 := by omega
    simp [below, first]

/-- A piece of a field is a piece of the byte that it starts in. -/
theorem take_bits_eq {bytes : List UInt8} {b : UInt8} {position share : Nat}
    (found : bytes[position / 8]? = some b) (inside : position % 8 + share ≤ 8) :
    ((bits bytes).drop position).take share =
      ((field b.toNat 8).drop (position % 8)).take share := by
  obtain ⟨lt, rfl⟩ := List.getElem?_eq_some_iff.mp found
  have at_byte : (bits bytes).drop position = (field bytes[position / 8].toNat 8 ++
      bits (bytes.drop (position / 8 + 1))).drop (position % 8) := by
    rw [← bits_cons, List.getElem_cons_drop, bits_drop, List.drop_drop]
    congr 1
    omega
  rw [at_byte, List.drop_append_of_le_length (by rw [length_field]; omega),
    List.take_append_of_le_length (by rw [List.length_drop, length_field]; omega)]

/-- The number read so far moves up for a piece, and none of its bits is lost. -/
theorem toNat_shifted {g : Gather} (fits : (g.value.toNat + 1) * 2 ^ g.left ≤ 2 ^ 64) :
    (g.value <<< UInt64.ofNat g.share).toNat = g.value.toNat * 2 ^ g.share := by
  have part : g.share ≤ g.left := Nat.min_le_right _ _
  have room : g.share ≤ 8 - g.position % 8 := Nat.min_le_left _ _
  have amount : (UInt64.ofNat g.share).toNat % 64 = g.share := by
    rw [UInt64.toNat_ofNat']
    omega
  have high : g.value.toNat * 2 ^ g.share < 2 ^ 64 := by
    calc g.value.toNat * 2 ^ g.share
        < (g.value.toNat + 1) * 2 ^ g.share :=
          Nat.mul_lt_mul_of_pos_right (Nat.lt_succ_self _) (Nat.two_pow_pos _)
      _ ≤ (g.value.toNat + 1) * 2 ^ g.left :=
          Nat.mul_le_mul_left _ (Nat.pow_le_pow_right (by omega) part)
      _ ≤ 2 ^ 64 := fits
  rw [UInt64.toNat_shiftLeft, amount, Nat.shiftLeft_eq, Nat.mod_eq_of_lt high]

/-- What was read leaves room above it for all that is still to come, after a piece too. -/
theorem fits_next {g next : Gather} {piece : List Bool}
    (fits : (g.value.toNat + 1) * 2 ^ g.left ≤ 2 ^ 64) (width : piece.length = g.share)
    (left : next.left = g.left - g.share)
    (value : next.value.toNat = g.value.toNat * 2 ^ g.share + numeral piece) :
    (next.value.toNat + 1) * 2 ^ next.left ≤ 2 ^ 64 := by
  have part : g.share ≤ g.left := Nat.min_le_right _ _
  have low := numeral_lt piece
  rw [width] at low
  have power : 2 ^ g.share * 2 ^ next.left = 2 ^ g.left := by
    rw [← Nat.pow_add, left, Nat.add_sub_cancel' part]
  calc (next.value.toNat + 1) * 2 ^ next.left
      ≤ ((g.value.toNat + 1) * 2 ^ g.share) * 2 ^ next.left := by
        refine Nat.mul_le_mul_right _ ?_
        rw [value, Nat.add_mul, Nat.one_mul]
        omega
    _ = (g.value.toNat + 1) * 2 ^ g.left := by rw [Nat.mul_assoc, power]
    _ ≤ 2 ^ 64 := fits

/-- One piece is appended to the number below what was read. -/
theorem step_eq {bytes : List UInt8} {g : Gather} (more : g.left ≠ 0)
    (inside : g.position + g.left ≤ 8 * bytes.length)
    (fits : (g.value.toNat + 1) * 2 ^ g.left ≤ 2 ^ 64) :
    ∃ next, g.step bytes = .ok next ∧ next.position = g.position + g.share ∧
      next.left = g.left - g.share ∧ next.value.toNat = g.value.toNat * 2 ^ g.share +
        numeral (((bits bytes).drop g.position).take g.share) := by
  have nonempty := share_pos more
  have part : g.share ≤ g.left := Nat.min_le_right _ _
  have room : g.share ≤ 8 - g.position % 8 := Nat.min_le_left _ _
  have bound : g.position / 8 < bytes.length := by omega
  have found : bytes[g.position / 8]? = some bytes[g.position / 8] :=
    List.getElem?_eq_getElem bound
  have within_byte : g.position % 8 + g.share ≤ 8 := by omega
  refine ⟨_, by rw [step, found], rfl, rfl, ?_⟩
  have low :=
    numeral_lt (((field bytes[g.position / 8].toNat 8).drop (g.position % 8)).take g.share)
  have width : (((field bytes[g.position / 8].toNat 8).drop (g.position % 8)).take g.share).length =
      g.share := by
    rw [List.length_take, List.length_drop, length_field]
    omega
  rw [width] at low
  rw [UInt64.toNat_or, toNat_shifted fits, UInt8.toNat_toUInt64, toNat_piece _ nonempty within_byte,
    take_bits_eq found within_byte, ← Nat.shiftLeft_eq, ← Nat.shiftLeft_add_eq_or_of_lt low]

theorem run_of_step {bytes : List UInt8} {g next : Gather} (more : g.left ≠ 0)
    (h : g.step bytes = .ok next) : g.run bytes = next.run bytes := by
  rw [run, dif_neg more]
  split
  · rename_i f failed
    rw [h] at failed
    cases failed
  · rename_i other taken
    rw [h] at taken
    cases taken
    rfl

/-- The field loop, from any place in a field: what was read stands above what is still to come. -/
theorem run_eq (bytes : List UInt8) {g : Gather}
    (inside : g.position + g.left ≤ 8 * bytes.length)
    (fits : (g.value.toNat + 1) * 2 ^ g.left ≤ 2 ^ 64) :
    ∃ word, g.run bytes = .ok word ∧ word.toNat = g.value.toNat * 2 ^ g.left +
      numeral (((bits bytes).drop g.position).take g.left) := by
  induction left : g.left using Nat.strongRecOn generalizing g with
  | ind n ih =>
    by_cases done : n = 0
    · refine ⟨g.value, ?_, by simp [done]⟩
      rw [run, dif_pos (by omega)]
    have more : g.left ≠ 0 := by omega
    have part : g.share ≤ g.left := Nat.min_le_right _ _
    obtain ⟨next, taken, position, rest, value⟩ := step_eq more inside fits
    have shorter := step_left_lt more taken
    have total : n = g.share + next.left := by omega
    -- The bits that are still to come are the piece that was taken and the rest of the field.
    have cut : ((bits bytes).drop g.position).take n =
        ((bits bytes).drop g.position).take g.share ++
          ((bits bytes).drop next.position).take next.left := by
      rw [position, ← List.drop_drop, ← List.take_add, total]
    have size : (((bits bytes).drop next.position).take next.left).length = next.left := by
      rw [List.length_take, List.length_drop, length_bits]
      omega
    have power : 2 ^ g.share * 2 ^ next.left = 2 ^ n := by
      rw [← Nat.pow_add, total]
    have result_eq : g.value.toNat * 2 ^ n + numeral (((bits bytes).drop g.position).take n) =
        next.value.toNat * 2 ^ next.left +
          numeral (((bits bytes).drop next.position).take next.left) := by
      rw [cut, numeral_append, size, value, Nat.add_mul, Nat.mul_assoc, power, Nat.add_assoc]
    have width : (((bits bytes).drop g.position).take g.share).length = g.share := by
      rw [List.length_take, List.length_drop, length_bits]
      omega
    have bounded := fits_next fits width rest value
    obtain ⟨word, ran, result⟩ := ih next.left (by omega) (by omega) bounded rfl
    exact ⟨word, (run_of_step more taken).trans ran, result.trans result_eq.symm⟩

end Gather

end BinaryStream
