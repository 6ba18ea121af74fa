import BinaryStream.Proofs.ByteNumber
import BinaryStream.Proofs.SignExtension
import BinaryStream.Scalar

/-!
The stored bytes of a scalar are the digits of its number, in any order and of any kind: the words
that are swapped and those that are put together byte by byte have one description. What is read
back is the number reduced to the stored width, in the range of the kind.
-/
namespace BinaryStream

open Bytes

theorem Width.bits_eq (w : Width) : w.bits = 8 * w.size := by
  cases w <;> rfl

theorem Width.size_le_valueSize (w : Width) : w.size ≤ w.valueSize := by
  cases w <;> decide

namespace Scalar

/-- The word for a number of the stored width; the top bit of a signed one is its sign. -/
def widen (t : Scalar) (stored : BitVec (8 * t.size)) : t.Value :=
  match t with
  | .signed _ => stored.signExtend _
  | .unsigned _ | .binary32 | .binary64 => stored.setWidth _

/-- What is left of a value when only its stored bytes are kept. -/
def reduce (t : Scalar) (value : t.Value) : t.Value := t.widen (value.setWidth (8 * t.size))

/-- The stored bytes hold the value's number. -/
def Representable (t : Scalar) (value : t.Value) : Prop :=
  t.range.1 ≤ t.toInt value ∧ t.toInt value ≤ t.range.2

/-! Bytes and numbers. -/

theorem storeWord_eq (n : Nat) (order : ByteOrder) (value : BitVec (8 * n)) :
    storeWord n order value = order.arrange (digits n value.toNat) := by
  cases order with
  | little => exact storeLittle_eq n value
  | big =>
    change storeLittle n (byteSwap n value) = (digits n value.toNat).reverse
    rw [storeLittle_byteSwap, storeLittle_eq]

theorem loadWord_eq {n : Nat} (order : ByteOrder) {bytes : List UInt8} (exact : bytes.length = n) :
    loadWord n order bytes = BitVec.ofNat (8 * n) (number (order.arrange bytes)) := by
  cases order with
  | little => exact loadLittle_eq (8 * n) bytes
  | big =>
    change byteSwap n (loadLittle (8 * n) bytes) = BitVec.ofNat (8 * n) (number bytes.reverse)
    rw [byteSwap_eq, loadLittle_eq, digits_toNat_ofNat_number exact]

theorem encode_eq (t : Scalar) (order : ByteOrder) (value : t.Value) :
    t.encode order value = order.arrange (digits t.size value.toNat) := by
  have odd24 (word : BitVec 32) :
      disassemble order 3 (UInt32.ofBitVec word).toUInt64 =
        order.arrange (digits 3 word.toNat) := by
    rw [disassemble_eq, UInt32.toNat_toUInt64]
    rfl
  have odd48 (word : BitVec 64) :
      disassemble order 6 (UInt64.ofBitVec word) = order.arrange (digits 6 word.toNat) := by
    rw [disassemble_eq]
    rfl
  cases t with
  | unsigned w => cases w <;> first | exact storeWord_eq _ _ _ | exact odd24 _ | exact odd48 _
  | signed w => cases w <;> first | exact storeWord_eq _ _ _ | exact odd24 _ | exact odd48 _
  | binary32 => exact storeWord_eq _ _ _
  | binary64 => exact storeWord_eq _ _ _

theorem toBitVec_signExtend24 (n : Nat) :
    (signExtend24 (UInt32.ofNat n)).toBitVec = (BitVec.ofNat 24 n).signExtend 32 := by
  have low : (BitVec.ofNat 32 n).setWidth 24 = BitVec.ofNat 24 n :=
    BitVec.setWidth_ofNat_of_le (by decide) n
  rw [← low]
  exact sshiftRight_shiftLeft (BitVec.ofNat 32 n) (k := 8) (by decide)

theorem toBitVec_signExtend48 (n : Nat) :
    (signExtend48 (UInt64.ofNat n)).toBitVec = (BitVec.ofNat 48 n).signExtend 64 := by
  have low : (BitVec.ofNat 64 n).setWidth 48 = BitVec.ofNat 48 n :=
    BitVec.setWidth_ofNat_of_le (by decide) n
  rw [← low]
  exact sshiftRight_shiftLeft (BitVec.ofNat 64 n) (k := 16) (by decide)

theorem setWidth_ofNat_of_lt {n v w : Nat} (small : n < 2 ^ v) :
    (BitVec.ofNat v n).setWidth w = BitVec.ofNat w n := by
  apply BitVec.eq_of_toNat_eq
  rw [BitVec.toNat_setWidth, BitVec.toNat_ofNat, BitVec.toNat_ofNat, Nat.mod_eq_of_lt small]

theorem decode_eq (t : Scalar) (order : ByteOrder) {bytes : List UInt8}
    (exact : bytes.length = t.size) :
    t.decode order bytes =
      t.widen (BitVec.ofNat (8 * t.size) (number (order.arrange bytes))) := by
  have small : number (order.arrange bytes) < 2 ^ (8 * t.size) := by
    rw [← exact, ← order.length_arrange]
    exact number_lt _
  have full {n : Nat} (whole : bytes.length = n) :
      loadWord n order bytes =
        (BitVec.ofNat (8 * n) (number (order.arrange bytes))).setWidth (8 * n) := by
    rw [loadWord_eq order whole, BitVec.setWidth_eq]
  have full' {n : Nat} (whole : bytes.length = n) :
      loadWord n order bytes =
        (BitVec.ofNat (8 * n) (number (order.arrange bytes))).signExtend (8 * n) := by
    rw [loadWord_eq order whole, BitVec.signExtend_eq]
  cases t with
  | unsigned w =>
    cases w with
    | w24 =>
      change (assemble order bytes).toUInt32.toBitVec = (BitVec.ofNat 24 _).setWidth 32
      rw [setWidth_ofNat_of_lt (v := 24) small, assemble_eq, UInt64.toUInt32_ofNat']
      rfl
    | w48 =>
      change (assemble order bytes).toBitVec = (BitVec.ofNat 48 _).setWidth 64
      rw [setWidth_ofNat_of_lt (v := 48) small, assemble_eq]
      rfl
    | w8 | w16 | w32 | w64 => exact full exact
  | signed w =>
    cases w with
    | w24 =>
      change (signExtend24 (assemble order bytes).toUInt32).toBitVec = _
      rw [assemble_eq, UInt64.toUInt32_ofNat']
      exact toBitVec_signExtend24 _
    | w48 =>
      change (signExtend48 (assemble order bytes)).toBitVec = _
      rw [assemble_eq]
      exact toBitVec_signExtend48 _
    | w8 | w16 | w32 | w64 => exact full' exact
  | binary32 => exact full exact
  | binary64 => exact full exact

theorem toNat_decode {t : Scalar} (plain : ∀ w, t ≠ .signed w) (order : ByteOrder)
    {bytes : List UInt8} (exact : bytes.length = t.size) :
    (t.decode order bytes).toNat = number (order.arrange bytes) := by
  have small := number_lt (order.arrange bytes)
  rw [order.length_arrange, exact] at small
  have narrower : 8 * t.size ≤ 8 * t.valueSize := Nat.mul_le_mul_left 8 t.width.size_le_valueSize
  have word : number (order.arrange bytes) < 2 ^ (8 * t.valueSize) :=
    Nat.lt_of_lt_of_le small (Nat.pow_le_pow_right (by decide) narrower)
  have widened (stored : BitVec (8 * t.size)) : t.widen stored = stored.setWidth _ := by
    cases t with
    | signed w => exact absurd rfl (plain w)
    | unsigned w => rfl
    | binary32 => rfl
    | binary64 => rfl
  rw [t.decode_eq order exact, widened, setWidth_ofNat_of_lt small, BitVec.toNat_ofNat,
    Nat.mod_eq_of_lt word]

theorem toInt_decode_signed {w : Width} (order : ByteOrder) {bytes : List UInt8}
    (exact : bytes.length = w.size) :
    ((signed w).decode order bytes).toInt =
      (number (order.arrange bytes) : Int).bmod (2 ^ (8 * w.size)) := by
  have narrower : 8 * w.size ≤ 8 * w.valueSize := Nat.mul_le_mul_left 8 w.size_le_valueSize
  rw [(signed w).decode_eq order exact]
  change ((BitVec.ofNat (8 * w.size) _).signExtend (8 * w.valueSize)).toInt = _
  rw [BitVec.toInt_signExtend_of_le narrower, BitVec.toInt_ofNat']

/-! Round trips. -/

theorem setWidth_widen (t : Scalar) (stored : BitVec (8 * t.size)) :
    (t.widen stored).setWidth (8 * t.size) = stored := by
  have narrower : 8 * t.size ≤ 8 * t.valueSize := Nat.mul_le_mul_left 8 t.width.size_le_valueSize
  apply BitVec.eq_of_getElem_eq
  intro i below
  have inside : i < 8 * t.valueSize := by omega
  cases t with
  | signed w => simp [widen, BitVec.getElem_signExtend, below, inside]
  | unsigned w => simp [widen, below, inside]
  | binary32 => simp [widen, below, inside]
  | binary64 => simp [widen, below, inside]

theorem encode_decode (t : Scalar) (order : ByteOrder) {bytes : List UInt8}
    (exact : bytes.length = t.size) : t.encode order (t.decode order bytes) = bytes := by
  have stored : (order.arrange bytes).length = t.size := by rw [order.length_arrange, exact]
  rw [decode_eq t order exact, encode_eq, ← digits_mod, ← BitVec.toNat_setWidth, setWidth_widen,
    digits_toNat_ofNat_number stored, ByteOrder.arrange_arrange]

theorem decode_encode (t : Scalar) (order : ByteOrder) (value : t.Value) :
    t.decode order (t.encode order value) = t.reduce value := by
  rw [decode_eq t order (t.length_encode order value), encode_eq, ByteOrder.arrange_arrange,
    number_digits, ← BitVec.toNat_setWidth, BitVec.ofNat_toNat, BitVec.setWidth_eq, reduce]

theorem encode_big (t : Scalar) (value : t.Value) :
    t.encode .big value = (t.encode .little value).reverse := by
  rw [encode_eq, encode_eq]
  rfl

theorem decode_big (t : Scalar) {bytes : List UInt8} (exact : bytes.length = t.size) :
    t.decode .big bytes = t.decode .little bytes.reverse := by
  have reversed : bytes.reverse.length = t.size := by rw [List.length_reverse, exact]
  rw [decode_eq t .big exact, decode_eq t .little reversed]
  rfl

/-! What is read back. -/

theorem reduce_of_full {t : Scalar} (full : t.size = t.valueSize) (value : t.Value) :
    t.reduce value = value := by
  have same : (t.reduce value).toNat % 2 ^ (8 * t.size) = value.toNat % 2 ^ (8 * t.size) := by
    rw [← BitVec.toNat_setWidth, ← BitVec.toNat_setWidth, reduce, setWidth_widen]
  rw [full, Nat.mod_eq_of_lt (BitVec.isLt _), Nat.mod_eq_of_lt (BitVec.isLt _)] at same
  exact BitVec.eq_of_toNat_eq same

theorem toNat_reduce {t : Scalar} (plain : ∀ w, t ≠ .signed w) (value : t.Value) :
    (t.reduce value).toNat = value.toNat % 2 ^ t.width.bits := by
  have narrower : 8 * t.size ≤ 8 * t.valueSize := Nat.mul_le_mul_left 8 t.width.size_le_valueSize
  have small : value.toNat % 2 ^ (8 * t.size) < 2 ^ (8 * t.valueSize) :=
    Nat.lt_of_lt_of_le (Nat.mod_lt _ (Nat.two_pow_pos _))
      (Nat.pow_le_pow_right (by decide) narrower)
  have kept : ((value.setWidth (8 * t.size)).setWidth (8 * t.valueSize)).toNat =
      value.toNat % 2 ^ (8 * t.size) := by
    rw [BitVec.toNat_setWidth, BitVec.toNat_setWidth, Nat.mod_eq_of_lt small]
  rw [t.width.bits_eq]
  cases t with
  | signed w => exact absurd rfl (plain w)
  | unsigned w => exact kept
  | binary32 => exact kept
  | binary64 => exact kept

theorem toInt_reduce_signed (w : Width) (value : (signed w).Value) :
    ((signed w).reduce value).toInt = value.toInt.bmod (2 ^ w.bits) := by
  have narrower : 8 * w.size ≤ 8 * w.valueSize := Nat.mul_le_mul_left 8 w.size_le_valueSize
  rw [w.bits_eq]
  change ((value.setWidth (8 * w.size)).signExtend (8 * w.valueSize)).toInt = _
  rw [BitVec.toInt_signExtend_of_le narrower, BitVec.toInt_setWidth,
    BitVec.toInt_eq_toNat_bmod value]
  exact (Int.bmod_bmod_of_dvd (Nat.pow_dvd_pow 2 narrower)).symm

theorem toInt_injective {t : Scalar} {a b : t.Value} (same : t.toInt a = t.toInt b) : a = b := by
  cases t with
  | signed w => exact BitVec.toInt_inj.mp same
  | unsigned w => exact BitVec.eq_of_toNat_eq (Int.ofNat.inj same)
  | binary32 => exact BitVec.eq_of_toNat_eq (Int.ofNat.inj same)
  | binary64 => exact BitVec.eq_of_toNat_eq (Int.ofNat.inj same)

theorem eq_emod_iff {m a n : Int} (pos : 0 < m) :
    n = a % m ↔ n % m = a % m ∧ 0 ≤ n ∧ n ≤ m - 1 := by
  constructor
  · rintro rfl
    have := Int.emod_nonneg a (Int.ne_of_gt pos)
    have := Int.emod_lt_of_pos a pos
    exact ⟨Int.emod_emod_of_dvd a (Int.dvd_refl m), by omega, by omega⟩
  · rintro ⟨same, low, high⟩
    rw [← same, Int.emod_eq_of_lt low (by omega)]

theorem eq_toNat_reduce_iff {t : Scalar} (plain : ∀ w, t ≠ .signed w) (value : t.Value) (n : Int) :
    n = (t.reduce value).toNat ↔
      n % 2 ^ t.width.bits = (value.toNat : Int) % 2 ^ t.width.bits ∧
        0 ≤ n ∧ n ≤ (Nat.pow 2 t.width.bits : Nat) - 1 := by
  have pos : (0 : Int) < (2 ^ t.width.bits : Nat) := Int.natCast_pos.mpr (Nat.two_pow_pos _)
  have power : ((2 ^ t.width.bits : Nat) : Int) = 2 ^ t.width.bits := Int.natCast_pow 2 _
  rw [toNat_reduce plain, Int.natCast_emod, eq_emod_iff pos, ← power]
  rfl

theorem eq_toInt_reduce_signed_iff (w : Width) (value : (signed w).Value) (n : Int) :
    n = ((signed w).reduce value).toInt ↔
      n % 2 ^ w.bits = value.toInt % 2 ^ w.bits ∧
        -(Nat.pow 2 (w.bits - 1) : Nat) ≤ n ∧ n ≤ (Nat.pow 2 (w.bits - 1) : Nat) - 1 := by
  have some : 0 < w.bits := by cases w <;> decide
  have power : ((Nat.pow 2 (w.bits - 1) : Nat) : Int) = 2 ^ (w.bits - 1) := Int.natCast_pow 2 _
  rw [toInt_reduce_signed, eq_bmod_two_pow_iff some, power, Int.le_sub_one_iff]

/-- The number read back is the only one in the range of the kind that is congruent to the value's
modulo the stored width. -/
theorem eq_toInt_reduce_iff (t : Scalar) (value : t.Value) (n : Int) :
    n = t.toInt (t.reduce value) ↔
      n % 2 ^ t.width.bits = t.toInt value % 2 ^ t.width.bits ∧ t.range.1 ≤ n ∧ n ≤ t.range.2 := by
  cases t with
  | signed w => exact eq_toInt_reduce_signed_iff w value n
  | unsigned w => exact eq_toNat_reduce_iff (t := .unsigned w) nofun value n
  | binary32 => exact eq_toNat_reduce_iff (t := .binary32) nofun value n
  | binary64 => exact eq_toNat_reduce_iff (t := .binary64) nofun value n

theorem reduce_eq_iff (t : Scalar) (value : t.Value) :
    t.reduce value = value ↔ t.Representable value := by
  have unique := t.eq_toInt_reduce_iff value (t.toInt value)
  constructor
  · intro same
    rw [same] at unique
    exact (unique.mp rfl).2
  · intro inside
    exact toInt_injective (unique.mpr ⟨rfl, inside⟩).symm

/-- Storing is lossless in both directions. Any bytes of a kind's size are the stored form of what
they are read as. A value is read back as the only number in the range of its kind that is congruent
to it modulo the stored width: itself where the width is that of its word, its remainder for an
unsigned kind, and itself otherwise exactly when it is in the range. The two orders are each other's
reversal. -/
theorem codec_round_trip (t : Scalar) (order : ByteOrder) :
    (∀ bytes : List UInt8, bytes.length = t.size →
      t.encode order (t.decode order bytes) = bytes ∧
      t.decode .big bytes = t.decode .little bytes.reverse) ∧
    ∀ value : t.Value,
      let result := t.decode order (t.encode order value)
      (t.encode order value).length = t.size ∧
      (t.size = t.valueSize → result = value) ∧
      ((∀ w, t ≠ .signed w) → result.toNat = value.toNat % 2 ^ t.width.bits) ∧
      (∀ n : Int, n = t.toInt result ↔
        n % 2 ^ t.width.bits = t.toInt value % 2 ^ t.width.bits ∧
          t.range.1 ≤ n ∧ n ≤ t.range.2) ∧
      (result = value ↔ t.range.1 ≤ t.toInt value ∧ t.toInt value ≤ t.range.2) ∧
      t.encode .big value = (t.encode .little value).reverse := by
  constructor
  · intro bytes exact
    exact ⟨t.encode_decode order exact, t.decode_big exact⟩
  · intro value result
    have read : result = t.reduce value := t.decode_encode order value
    refine ⟨t.length_encode order value, ?_, ?_, ?_, ?_, t.encode_big value⟩
    · intro full
      rw [read, reduce_of_full full]
    · intro plain
      rw [read, toNat_reduce plain]
    · intro n
      rw [read]
      exact t.eq_toInt_reduce_iff value n
    · rw [read]
      exact t.reduce_eq_iff value

/-- A negative number of three bytes, a word too wide for three bytes, and a pattern that is not a
number, with its payload. -/
theorem codec_round_trip_extremes :
    (signed .w24).encode .big ((signed .w24).decode .big [0x80, 0x01, 0xFE]) =
        [0x80, 0x01, 0xFE] ∧
      ((unsigned .w24).decode .little ((unsigned .w24).encode .little 0xAA010203)).toNat =
        0x010203 ∧
      binary64.decode .big (binary64.encode .big 0x7FF80000DEADBEEF) = 0x7FF80000DEADBEEF := by
  have stored := ((codec_round_trip (.signed .w24) .big).1 [0x80, 0x01, 0xFE] rfl).1
  obtain ⟨-, -, remainder, -⟩ := (codec_round_trip (.unsigned .w24) .little).2 0xAA010203
  obtain ⟨-, whole, -⟩ := (codec_round_trip .binary64 .big).2 0x7FF80000DEADBEEF
  exact ⟨stored, remainder nofun, whole rfl⟩

end Scalar

end BinaryStream
