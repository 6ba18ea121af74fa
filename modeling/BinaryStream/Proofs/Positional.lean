import Mathlib.Algebra.BigOperators.Fin
import BinaryStream.Proofs.Scalar

/-!
Positional notation. Integers of any width up to eight bytes, whose order is known only at run time,
are numbers in base 256, and signed ones are the same numbers in the range around zero. The scalars,
whose widths and orders are fixed beforehand and whose words may be loaded whole, are those
integers.
-/
namespace BinaryStream

open Bytes

/-! Numbers. -/

theorem bigEndian_cons (b : UInt8) (rest : List UInt8) :
    bigEndian (b :: rest) = b.toNat * 256 ^ rest.length + bigEndian rest := by
  rw [bigEndian, bigEndian, List.reverse_cons, number_append, List.length_reverse, Nat.pow_mul]
  simp [number, Nat.mul_comm, Nat.add_comm]

theorem bigEndian_eq_sum (bytes : List UInt8) :
    bigEndian bytes =
      ∑ i : Fin bytes.length, bytes[i].toNat * 256 ^ (bytes.length - 1 - i.val) := by
  induction bytes with
  | nil => rfl
  | cons b rest ih =>
    have first := Fin.sum_univ_succ fun i : Fin (rest.length + 1) =>
      (b :: rest)[i].toNat * 256 ^ (rest.length - i.val)
    have place (i : Fin rest.length) : rest.length - 1 - i.val = rest.length - (i.val + 1) := by
      omega
    refine Eq.trans ?_ first.symm
    simp [bigEndian_cons, ih, place]

/-! Integers. -/

theorem toNat_assemble (order : ByteOrder) {bytes : List UInt8} (narrow : bytes.length ≤ 8) :
    (assemble order bytes).toNat = number (order.arrange bytes) := by
  have small := number_lt (order.arrange bytes)
  rw [order.length_arrange] at small
  have word : 2 ^ (8 * bytes.length) ≤ 2 ^ 64 := Nat.pow_le_pow_right (by decide) (by omega)
  rw [assemble_eq, UInt64.toNat_ofNat', Nat.mod_eq_of_lt (Nat.lt_of_lt_of_le small word)]

theorem assemble_reverse (order : ByteOrder) (bytes : List UInt8) :
    assemble order.reverse bytes.reverse = assemble order bytes := by
  cases order <;> simp [assemble, ByteOrder.reverse]

theorem disassemble_assemble (order : ByteOrder) {bytes : List UInt8} (narrow : bytes.length ≤ 8) :
    disassemble order bytes.length (assemble order bytes) = bytes := by
  rw [disassemble_eq, toNat_assemble order narrow, ← order.length_arrange, digits_number,
    ByteOrder.arrange_arrange]

theorem toNat_assemble_disassemble (order : ByteOrder) {n : Nat} (narrow : n ≤ 8) (value : UInt64) :
    (assemble order (disassemble order n value)).toNat = value.toNat % 256 ^ n := by
  rw [toNat_assemble order (by rwa [length_disassemble]), disassemble_eq, ByteOrder.arrange_arrange,
    number_digits, Nat.pow_mul]

theorem decodeUInt_of_narrow (order : ByteOrder) {bytes : List UInt8} (narrow : bytes.length ≤ 8) :
    decodeUInt order bytes = .ok (assemble order bytes) :=
  if_pos narrow

theorem decodeInt_of_narrow (order : ByteOrder) {bytes : List UInt8} (some : bytes ≠ [])
    (narrow : bytes.length ≤ 8) :
    ∃ signed, decodeInt order bytes = .ok signed ∧
      signed.toInt = (number (order.arrange bytes) : Int).bmod (2 ^ (8 * bytes.length)) := by
  have width : 0 < bytes.length * 8 := Nat.mul_pos (List.length_pos_iff.mpr some) (by decide)
  obtain ⟨signed, extended, value⟩ :=
    signExtend_apply (assemble order bytes) width (Nat.mul_le_mul_right 8 narrow)
  refine ⟨signed, ?_, ?_⟩
  · rw [decodeInt, decodeUInt_of_narrow order narrow, if_neg (by simpa using some)]
    exact extended
  · rw [value, toNat_assemble order narrow, Nat.mul_comm]

theorem decodeInt_of_wide (order : ByteOrder) {bytes : List UInt8} (wide : 8 < bytes.length) :
    decodeInt order bytes = .error (.decodeWidth bytes.length) := by
  have some : bytes ≠ [] := List.ne_nil_of_length_pos (Nat.zero_lt_of_lt wide)
  rw [decodeInt, decodeUInt, if_neg (by simpa using some), if_neg (Nat.not_le.mpr wide)]
  rfl

/-- Up to eight bytes are the digits of a number below the power of 256 with their count, most
significant first in big endian order and the reverse in little; writing the number over as many
bytes gives them back. The signed number of one byte or more is the only one in the signed range of
their width that is congruent to it. Writing a number reduces it to the width, and replaces every
byte whatever it was. More than eight bytes are a fault, as no bytes are where a sign is read, and
nothing else is. -/
theorem integers_positional (order : ByteOrder) :
    (∀ bytes : List UInt8, bytes.length ≤ 8 → ∃ value,
      decodeUInt order bytes = .ok value ∧
      (order = .big → value.toNat =
        ∑ i : Fin bytes.length, bytes[i].toNat * 256 ^ (bytes.length - 1 - i.val)) ∧
      decodeUInt order.reverse bytes.reverse = .ok value ∧
      value.toNat < 256 ^ bytes.length ∧
      (∀ out : List UInt8, out.length = bytes.length →
        overwriteUInt order value out = .ok bytes) ∧
      (bytes ≠ [] → ∃ signed, decodeInt order bytes = .ok signed ∧
        ∀ n : Int, n = signed.toInt ↔
          n % 2 ^ (8 * bytes.length) = value.toNat % 2 ^ (8 * bytes.length) ∧
            -2 ^ (8 * bytes.length - 1) ≤ n ∧ n < 2 ^ (8 * bytes.length - 1))) ∧
    (∀ (value : UInt64) (out : List UInt8), out.length ≤ 8 → ∃ bytes back,
      overwriteUInt order value out = .ok bytes ∧ bytes.length = out.length ∧
      (∀ other : List UInt8, other.length = out.length →
        overwriteUInt order value other = .ok bytes) ∧
      decodeUInt order bytes = .ok back ∧ back.toNat = value.toNat % 256 ^ out.length) ∧
    (∀ (value : UInt64) (bytes : List UInt8), 8 < bytes.length →
      decodeUInt order bytes = .error (.decodeWidth bytes.length) ∧
      decodeInt order bytes = .error (.decodeWidth bytes.length) ∧
      overwriteUInt order value bytes = .error (.encodeWidth bytes.length)) ∧
    decodeInt order [] = .error .decodeEmpty := by
  refine ⟨?_, ?_, ?_, rfl⟩
  · intro bytes narrow
    have value := toNat_assemble order narrow
    refine ⟨assemble order bytes, decodeUInt_of_narrow order narrow, ?_, ?_, ?_, ?_, ?_⟩
    · rintro rfl
      rw [value, ← bigEndian_eq_sum]
      rfl
    · rw [decodeUInt_of_narrow _ (by rwa [List.length_reverse]), assemble_reverse]
    · rw [value, ← Nat.pow_mul 2 8, ← order.length_arrange]
      exact number_lt _
    · intro out same
      rw [overwriteUInt_eq, same, if_pos narrow, disassemble_assemble order narrow]
    · intro some
      have bits : 0 < 8 * bytes.length := Nat.mul_pos (by decide) (List.length_pos_iff.mpr some)
      obtain ⟨signed, read, number⟩ := decodeInt_of_narrow order some narrow
      refine ⟨signed, read, fun n => ?_⟩
      rw [number, ← value]
      exact eq_bmod_two_pow_iff bits _ n
  · intro value out narrow
    have wrote : overwriteUInt order value out = _ := overwriteUInt_eq order value out
    rw [if_pos narrow] at wrote
    refine ⟨_, _, wrote, length_disassemble _ _ _, ?_, decodeUInt_of_narrow order ?_,
      toNat_assemble_disassemble order narrow value⟩
    · intro other same
      rw [overwriteUInt_eq, same, if_pos narrow]
    · rwa [length_disassemble]
  · intro value bytes wide
    refine ⟨if_neg (Nat.not_le.mpr wide), decodeInt_of_wide order wide, ?_⟩
    rw [overwriteUInt_eq, if_neg (Nat.not_le.mpr wide)]

/-- A negative number of seven bytes, written over others; nine bytes are too many. -/
theorem integers_positional_seven :
    let bytes : List UInt8 := [0x80, 0, 0, 0, 0, 0, 5]
    ∃ value signed, decodeUInt .big bytes = .ok value ∧ value.toNat = 0x80000000000005 ∧
      decodeInt .big bytes = .ok signed ∧ signed.toInt = -0x7FFFFFFFFFFFFB ∧
      overwriteUInt .big value [1, 2, 3, 4, 5, 6, 7] = .ok bytes ∧
      overwriteUInt .big value [1, 2, 3, 4, 5, 6, 7, 8, 9] = .error (.encodeWidth 9) := by
  intro bytes
  obtain ⟨narrow, -, wide, -⟩ := integers_positional .big
  obtain ⟨value, read, sum, -, -, wrote, integer⟩ := narrow bytes (by decide)
  obtain ⟨signed, readInt, unique⟩ := integer (by decide)
  have number : value.toNat = 0x80000000000005 := (sum rfl).trans (by decide)
  have negative := (unique (-0x7FFFFFFFFFFFFB)).mpr (by rw [number]; decide)
  exact ⟨value, signed, read, number, readInt, negative.symm, wrote _ rfl,
    (wide value _ (by decide)).2.2⟩

/-! Scalars. -/

namespace Scalar

theorem size_le (t : Scalar) : t.size ≤ 8 := by
  cases h : t.width <;> simp [size, h, Width.size]

/-- The number of a value is that of its pattern modulo the stored width. -/
theorem toInt_emod (t : Scalar) (value : t.Value) :
    t.toInt value % 2 ^ (8 * t.size) = (value.toNat : Int) % 2 ^ (8 * t.size) := by
  have narrower : 8 * t.size ≤ 8 * t.valueSize := Nat.mul_le_mul_left 8 t.width.size_le_valueSize
  have divides : (2 : Int) ^ (8 * t.size) ∣ 2 ^ (8 * t.valueSize) := pow_dvd_pow 2 narrower
  have power : ((2 ^ (8 * t.valueSize) : Nat) : Int) = 2 ^ (8 * t.valueSize) :=
    Int.natCast_pow 2 _
  cases t with
  | signed w =>
    change value.toInt % _ = _
    rw [BitVec.toInt_eq_toNat_bmod, ← Int.emod_emod_of_dvd _ divides, ← power, Int.bmod_emod, power,
      Int.emod_emod_of_dvd _ divides]
  | unsigned w => rfl
  | binary32 => rfl
  | binary64 => rfl

theorem toNat_ofInt (n : Int) : ((UInt64.ofInt n).toNat : Int) = n % 2 ^ 64 := by
  have nonneg : 0 ≤ n % 2 ^ 64 := Int.emod_nonneg n (by decide)
  have below : n % 2 ^ 64 < 2 ^ 64 := Int.emod_lt_of_pos n (by decide)
  rw [UInt64.ofInt, UInt64.toNat_ofNat']
  omega

/-- As many low bytes as are stored are those of the value when its number is taken as a word. -/
theorem digits_toNat_ofInt (t : Scalar) (value : t.Value) :
    digits t.size (UInt64.ofInt (t.toInt value)).toNat = digits t.size value.toNat := by
  have divides : (2 : Int) ^ (8 * t.size) ∣ 2 ^ 64 :=
    pow_dvd_pow 2 (Nat.mul_le_mul_left 8 t.size_le)
  have congruent : ((UInt64.ofInt (t.toInt value)).toNat : Int) % 2 ^ (8 * t.size) =
      (value.toNat : Int) % 2 ^ (8 * t.size) := by
    rw [toNat_ofInt, Int.emod_emod_of_dvd _ divides, t.toInt_emod]
  have same : (UInt64.ofInt (t.toInt value)).toNat % 2 ^ (8 * t.size) =
      value.toNat % 2 ^ (8 * t.size) := by
    exact_mod_cast congruent
  rw [← digits_mod, same, digits_mod]

/-- Whole words are swapped where the order is not the machine's; the odd widths never are. -/
theorem decode_big_eq_byteSwap {t : Scalar} (full : t.size = t.valueSize) (bytes : List UInt8) :
    t.decode .big bytes = byteSwap t.valueSize (t.decode .little bytes) := by
  cases t with
  | unsigned w =>
    cases w with
    | w24 | w48 => exact absurd full (by decide)
    | w8 | w16 | w32 | w64 => rfl
  | signed w =>
    cases w with
    | w24 | w48 => exact absurd full (by decide)
    | w8 | w16 | w32 | w64 => rfl
  | binary32 => rfl
  | binary64 => rfl

/-- A scalar is the number that its bytes spell, whether its word is loaded and swapped or put
together byte by byte: what integers of any width read, signed where the kind is, and what they
write of the value as a word of 64 bits. A binary float is the unsigned integer of its pattern. Of a
whole word the two orders are each other's swap, which puts each byte in the opposite place, takes
itself back, and is the same whether the word is read with a sign or without. -/
theorem scalars_positional (t : Scalar) (order : ByteOrder) :
    (∀ bytes : List UInt8, bytes.length = t.size →
      ((∃ w, t = .signed w) → ∃ n, decodeInt order bytes = .ok n ∧
        t.toInt (t.decode order bytes) = n.toInt) ∧
      ((∀ w, t ≠ .signed w) → ∃ n, decodeUInt order bytes = .ok n ∧
        t.toInt (t.decode order bytes) = n.toNat) ∧
      (t.size = t.valueSize →
        t.decode .big bytes = byteSwap t.valueSize (t.decode .little bytes))) ∧
    (∀ (value : t.Value) (out : List UInt8), out.length = t.size →
      overwriteUInt order (UInt64.ofInt (t.toInt value)) out = .ok (t.encode order value)) ∧
    (∀ bytes, binary32.decode order bytes = (unsigned .w32).decode order bytes) ∧
    (∀ value, binary32.encode order value = (unsigned .w32).encode order value) ∧
    (∀ bytes, binary64.decode order bytes = (unsigned .w64).decode order bytes) ∧
    (∀ value, binary64.encode order value = (unsigned .w64).encode order value) ∧
    (∀ n (v : BitVec (8 * n)), byteSwap n (byteSwap n v) = v ∧
      ∀ i < n, (byteSwap n v).extractLsb' (8 * i) 8 = v.extractLsb' (8 * (n - 1 - i)) 8) ∧
    ∀ w (value : (signed w).Value),
      let asUnsigned (v : (signed w).Value) : (unsigned w).Value :=
        (unsigned w).ofInt ((signed w).toInt v)
      asUnsigned (byteSwap w.valueSize value) = byteSwap w.valueSize (asUnsigned value) := by
  refine ⟨?_, ?_, fun _ => rfl, fun _ => rfl, fun _ => rfl, fun _ => rfl, ?_, ?_⟩
  · intro bytes exact
    have narrow : bytes.length ≤ 8 := exact ▸ t.size_le
    refine ⟨?_, ?_, fun full => decode_big_eq_byteSwap full bytes⟩
    · rintro ⟨w, rfl⟩
      have some : bytes ≠ [] := by
        rintro rfl
        cases w <;> cases exact
      obtain ⟨n, read, number⟩ := decodeInt_of_narrow order some narrow
      refine ⟨n, read, ?_⟩
      rw [number, exact]
      exact toInt_decode_signed order exact
    · intro plain
      refine ⟨_, decodeUInt_of_narrow order narrow, ?_⟩
      rw [toNat_assemble order narrow, ← toNat_decode plain order exact]
      cases t with
      | signed w => exact absurd rfl (plain w)
      | unsigned w => rfl
      | binary32 => rfl
      | binary64 => rfl
  · intro value out exact
    rw [overwriteUInt_eq, if_pos (exact ▸ t.size_le), disassemble_eq, exact, digits_toNat_ofInt,
      encode_eq]
  · intro n v
    exact ⟨byteSwap_byteSwap n v, fun i inside => extractLsb'_byteSwap v inside⟩
  · intro w value asUnsigned
    have same (v : (signed w).Value) : asUnsigned v = v := BitVec.ofInt_toInt
    exact (same _).trans (congrArg (byteSwap w.valueSize) (same value).symm)

/-- Three bytes of a negative number, read as an integer of their width and written back over
others; four bytes, read in both orders. -/
theorem scalars_positional_signed :
    let whole : Scalar := .signed .w32
    ∃ n, decodeInt .big [0xFF, 0xFF, 0xFE] = .ok n ∧ n.toInt = -2 ∧
      overwriteUInt .big (UInt64.ofInt (-2)) [1, 2, 3] = .ok [0xFF, 0xFF, 0xFE] ∧
      whole.decode .big [0x80, 0, 0, 1] = byteSwap 4 (whole.decode .little [0x80, 0, 0, 1]) ∧
      whole.toInt (whole.decode .big [0x80, 0, 0, 1]) = -0x7FFFFFFF := by
  intro whole
  obtain ⟨read, wrote, -⟩ := scalars_positional (.signed .w24) .big
  obtain ⟨swapped, -⟩ := scalars_positional whole .big
  obtain ⟨n, number, value⟩ := (read [0xFF, 0xFF, 0xFE] rfl).1 ⟨.w24, rfl⟩
  exact ⟨n, number, value.symm.trans (by decide), wrote (-2#32) [1, 2, 3] rfl,
    (swapped [0x80, 0, 0, 1] rfl).2.2 rfl, by decide⟩

end Scalar

end BinaryStream
