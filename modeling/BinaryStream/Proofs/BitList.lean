import Mathlib.Algebra.Order.Ring.Nat
import BinaryStream.Bytes

/-!
Lists of bits, most significant first: the bits of a number, the number that bits make, and the bits
of a block of bytes. They are what the streams are measured against; no stream computes with them.
-/
namespace BinaryStream

/-- The `n` lowest bits of a number, most significant first. -/
def field (value : Nat) : Nat → List Bool
  | 0 => []
  | n + 1 => value.testBit n :: field value n

/-- The number that bits make, most significant first. -/
def numeral (bits : List Bool) : Nat := bits.foldl (fun high bit => 2 * high + bit.toNat) 0

/-- The bits of a block, most significant bit of the first byte first. -/
def Bytes.bits (block : List UInt8) : List Bool := block.flatMap fun b => field b.toNat 8

/-! Fields. -/

@[simp] theorem length_field (value n : Nat) : (field value n).length = n := by
  induction n with
  | zero => rfl
  | succ n ih => simp [field, ih]

theorem getElem?_field (value n i : Nat) :
    (field value n)[i]? = if i < n then some (value.testBit (n - 1 - i)) else none := by
  induction n generalizing i with
  | zero => simp [field]
  | succ n ih =>
    cases i with
    | zero => simp [field]
    | succ i =>
      have same : n + 1 - 1 - (i + 1) = n - 1 - i := by omega
      rw [field, List.getElem?_cons_succ, ih, same]
      simp

theorem field_congr {a b n : Nat} (agree : ∀ i, i < n → a.testBit i = b.testBit i) :
    field a n = field b n := by
  induction n with
  | zero => rfl
  | succ n ih =>
    rw [field, field, agree n (by omega), ih fun i h => agree i (by omega)]

@[simp] theorem field_mod (value n : Nat) : field (value % 2 ^ n) n = field value n := by
  apply field_congr
  intro i inside
  simp [inside]

/-- A field cut in two: its upper part is the field of the number shifted down. -/
theorem field_add (value m n : Nat) :
    field value (m + n) = field (value >>> n) m ++ field value n := by
  induction m with
  | zero => simp [field]
  | succ m ih =>
    have top : value.testBit (m + n) = (value >>> n).testBit m := by
      rw [Nat.testBit_shiftRight, Nat.add_comm]
    rw [Nat.succ_add, field, field, ih, top, List.cons_append]

theorem field_take (value m n : Nat) : (field value (m + n)).take m = field (value >>> n) m := by
  rw [field_add, List.take_left' (length_field _ _)]

theorem testBit_of_field_eq_zeros {value n i : Nat}
    (zeros : field value n = List.replicate n false) (inside : i < n) :
    value.testBit i = false := by
  have same := congrArg (·[n - 1 - i]?) zeros
  simp only [getElem?_field, List.getElem?_replicate] at same
  have back : n - 1 - (n - 1 - i) = i := by omega
  rw [if_pos (by omega), if_pos (by omega), back] at same
  exact Option.some.inj same

@[simp] theorem field_zero_eq_replicate (n : Nat) : field 0 n = List.replicate n false := by
  induction n with
  | zero => rfl
  | succ n ih => simp [field, ih, List.replicate_succ]

/-! Numerals. -/

@[simp] theorem numeral_nil : numeral [] = 0 := rfl

theorem foldl_numeral (bits : List Bool) (high : Nat) :
    bits.foldl (fun high bit => 2 * high + bit.toNat) high =
      high * 2 ^ bits.length + numeral bits := by
  induction bits generalizing high with
  | nil => simp
  | cons bit bits ih =>
    rw [numeral, List.foldl_cons, List.foldl_cons, ih, ih (2 * 0 + bit.toNat)]
    simp only [List.length_cons, Nat.pow_succ]
    grind

theorem numeral_append (a b : List Bool) :
    numeral (a ++ b) = numeral a * 2 ^ b.length + numeral b := by
  rw [numeral, List.foldl_append, foldl_numeral]
  rfl

theorem numeral_cons (bit : Bool) (bits : List Bool) :
    numeral (bit :: bits) = bit.toNat * 2 ^ bits.length + numeral bits := by
  have one : numeral [bit] = bit.toNat := by simp [numeral]
  rw [← one, ← numeral_append, List.singleton_append]

theorem numeral_lt (bits : List Bool) : numeral bits < 2 ^ bits.length := by
  induction bits with
  | nil => simp
  | cons bit bits ih =>
    rw [numeral_cons, List.length_cons, Nat.pow_succ]
    cases bit <;> simp <;> omega

theorem numeral_field (value n : Nat) : numeral (field value n) = value % 2 ^ n := by
  induction n with
  | zero => simp [field, Nat.mod_one]
  | succ n ih =>
    rw [field, numeral_cons, length_field, ih, Nat.mod_pow_succ, Nat.toNat_testBit,
      Nat.mul_comm, Nat.add_comm]

theorem field_numeral (bits : List Bool) : field (numeral bits) bits.length = bits := by
  induction bits with
  | nil => rfl
  | cons bit bits ih =>
    have small := numeral_lt bits
    have low : field (numeral (bit :: bits)) bits.length = bits := by
      rw [← field_mod, numeral_cons, Nat.mul_add_mod_self_right, Nat.mod_eq_of_lt small, ih]
    have top : (numeral (bit :: bits)).testBit bits.length = bit := by
      rw [numeral_cons, Nat.mul_comm]
      cases bit
      · simpa using Nat.testBit_lt_two_pow small
      · have := Nat.testBit_two_pow_add_eq (numeral bits) bits.length
        simpa [Nat.testBit_lt_two_pow small] using this
    rw [List.length_cons, field, low, top]

/-- Bits that are no more than a word's make a number that is a word. -/
theorem toNat_ofNat_numeral {bits : List Bool} (narrow : bits.length ≤ 64) :
    (UInt64.ofNat (numeral bits)).toNat = numeral bits := by
  have small : numeral bits < 2 ^ 64 :=
    Nat.lt_of_lt_of_le (numeral_lt bits) (Nat.pow_le_pow_right (by decide) narrow)
  rw [UInt64.toNat_ofNat', Nat.mod_eq_of_lt small]

/-! Bits of a block. -/

namespace Bytes

@[simp] theorem bits_nil : bits [] = [] := rfl

@[simp] theorem bits_cons (b : UInt8) (block : List UInt8) :
    bits (b :: block) = field b.toNat 8 ++ bits block := rfl

@[simp] theorem bits_append (a b : List UInt8) : bits (a ++ b) = bits a ++ bits b := by
  simp [bits]

@[simp] theorem length_bits (block : List UInt8) : (bits block).length = 8 * block.length := by
  induction block with
  | nil => rfl
  | cons b block ih =>
    rw [bits_cons, List.length_append, length_field, ih, List.length_cons]
    omega

/-- Bit `i` of a block is bit `7 - i % 8` of its byte `i / 8`. -/
theorem getElem?_bits (block : List UInt8) (i : Nat) :
    (bits block)[i]? = block[i / 8]?.map fun b => b.toNat.testBit (7 - i % 8) := by
  induction block generalizing i with
  | nil => simp
  | cons b block ih =>
    rw [bits_cons, List.getElem?_append, length_field]
    split
    · rename_i first
      have zero : i / 8 = 0 := by omega
      have same : i % 8 = i := by omega
      rw [getElem?_field, if_pos first, zero, same]
      rfl
    · rename_i later
      have next : i / 8 = (i - 8) / 8 + 1 := by omega
      have same : (i - 8) % 8 = i % 8 := by omega
      rw [ih, next, same, List.getElem?_cons_succ]

theorem bits_drop (block : List UInt8) (n : Nat) :
    bits (block.drop n) = (bits block).drop (8 * n) := by
  induction block generalizing n with
  | nil => simp
  | cons b block ih =>
    cases n with
    | zero => simp
    | succ n =>
      rw [List.drop_succ_cons, ih, bits_cons, Nat.mul_succ, Nat.add_comm,
        ← List.drop_drop, List.drop_left' (length_field _ _)]

theorem bits_take (block : List UInt8) (n : Nat) :
    bits (block.take n) = (bits block).take (8 * n) := by
  have split : bits block = bits (block.take n) ++ bits (block.drop n) := by
    rw [← bits_append, List.take_append_drop]
  by_cases short : n ≤ block.length
  · rw [split, List.take_left' (by rw [length_bits, List.length_take_of_le short])]
  · rw [List.take_of_length_le (by omega), List.take_of_length_le (by rw [length_bits]; omega)]

theorem bits_injective {a b : List UInt8} (same : bits a = bits b) : a = b := by
  induction a generalizing b with
  | nil =>
    have : 8 * b.length = 0 := by rw [← length_bits, ← same]; rfl
    exact (List.length_eq_zero_iff.mp (by omega)).symm
  | cons x a ih =>
    cases b with
    | nil => simp [field] at same
    | cons y b =>
      rw [bits_cons, bits_cons] at same
      obtain ⟨first, rest⟩ := List.append_inj same (by simp)
      have equal : x.toNat = y.toNat := by
        have := congrArg numeral first
        rw [numeral_field, numeral_field] at this
        have := x.toNat_lt
        have := y.toNat_lt
        omega
      rw [UInt8.toNat_inj.mp equal, ih rest]

end Bytes

end BinaryStream
