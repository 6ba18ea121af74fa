import Mathlib.Algebra.Order.Ring.Nat
import BinaryStream.Word.Assembly
import BinaryStream.Word.Swap

/-!
Blocks of bytes as numbers in base 256. A word is taken apart by the machine, by a reversal of its
bytes or byte by byte; each way gives the digits of the same number, and a byte order only says
which end of the block comes first.
-/
namespace BinaryStream

namespace Bytes

/-- The number whose digits are the bytes, least significant first. -/
def number : List UInt8 → Nat
  | [] => 0
  | b :: rest => b.toNat + 256 * number rest

/-- The number of a block whose most significant byte comes first. -/
def bigEndian (block : List UInt8) : Nat := number block.reverse

/-- The `n` low digits of a number, least significant first. -/
def digits : Nat → Nat → List UInt8
  | 0, _ => []
  | n + 1, value => UInt8.ofNat value :: digits n (value / 256)

@[simp] theorem length_digits (n value : Nat) : (digits n value).length = n := by
  induction n generalizing value with
  | zero => rfl
  | succ n ih => simp [digits, ih]

theorem pow_bytes_succ (n : Nat) : 2 ^ (8 * (n + 1)) = 256 * 2 ^ (8 * n) := by
  rw [Nat.mul_succ, Nat.pow_add, Nat.mul_comm]

theorem number_lt (bytes : List UInt8) : number bytes < 2 ^ (8 * bytes.length) := by
  induction bytes with
  | nil => exact Nat.one_pos
  | cons b rest ih =>
    have digit := b.toNat_lt
    rw [number, List.length_cons, pow_bytes_succ]
    omega

theorem number_append (low high : List UInt8) :
    number (low ++ high) = number low + 2 ^ (8 * low.length) * number high := by
  induction low with
  | nil => simp [number]
  | cons b low ih =>
    rw [List.cons_append, number, ih, number, List.length_cons, pow_bytes_succ, Nat.mul_add,
      Nat.mul_assoc, Nat.add_assoc]

theorem number_digits (n value : Nat) : number (digits n value) = value % 2 ^ (8 * n) := by
  induction n generalizing value with
  | zero => simp [digits, number, Nat.mod_one]
  | succ n ih => rw [digits, number, ih, UInt8.toNat_ofNat', pow_bytes_succ, Nat.mod_mul]

theorem digits_number (bytes : List UInt8) : digits bytes.length (number bytes) = bytes := by
  induction bytes with
  | nil => rfl
  | cons b rest ih =>
    have digit : b.toNat < 256 := b.toNat_lt
    have high : (b.toNat + 256 * number rest) / 256 = number rest := by omega
    have low : UInt8.ofNat (b.toNat + 256 * number rest) = b := by
      apply UInt8.toNat_inj.mp
      rw [UInt8.toNat_ofNat']
      omega
    rw [List.length_cons, number, digits, high, low, ih]

/-- Digits above the ones asked for do not matter. -/
theorem digits_mod (n value : Nat) : digits n (value % 2 ^ (8 * n)) = digits n value := by
  have same := digits_number (digits n value)
  rwa [length_digits, number_digits] at same

theorem number_cons_eq_or (b : UInt8) (rest : List UInt8) :
    number (b :: rest) = number rest <<< 8 ||| b.toNat := by
  rw [← Nat.shiftLeft_add_eq_or_of_lt b.toNat_lt, number, Nat.shiftLeft_eq]
  omega

end Bytes

/-- The bytes of a block in this order with the least significant one first; the same reversal
takes them back. -/
def ByteOrder.arrange : ByteOrder → List UInt8 → List UInt8
  | .little, bytes => bytes
  | .big, bytes => bytes.reverse

@[simp] theorem ByteOrder.arrange_arrange (order : ByteOrder) (bytes : List UInt8) :
    order.arrange (order.arrange bytes) = bytes := by
  cases order <;> simp [arrange]

@[simp] theorem ByteOrder.length_arrange (order : ByteOrder) (bytes : List UInt8) :
    (order.arrange bytes).length = bytes.length := by
  cases order <;> simp [arrange]

open Bytes

/-! Words as the machine keeps them. -/

theorem loadLittle_eq (w : Nat) (bytes : List UInt8) :
    loadLittle w bytes = BitVec.ofNat w (number bytes) := by
  induction bytes with
  | nil => rfl
  | cons b rest ih =>
    have low : b.toBitVec.setWidth w = BitVec.ofNat w b.toNat := (BitVec.ofNat_toNat w _).symm
    have high : BitVec.ofNat w (number rest) <<< 8 = BitVec.ofNat w (number rest <<< 8) := by
      apply BitVec.eq_of_toNat_eq
      simp [Nat.shiftLeft_eq]
    rw [loadLittle, ih, number_cons_eq_or, BitVec.ofNat_or, high, low]

theorem storeLittle_eq {w : Nat} (n : Nat) (v : BitVec w) :
    storeLittle n v = digits n v.toNat := by
  induction n generalizing v with
  | zero => rfl
  | succ n ih =>
    have low : UInt8.ofBitVec (v.setWidth 8) = UInt8.ofNat v.toNat := by
      apply UInt8.toNat_inj.mp
      simp
    rw [storeLittle, ih, digits, low, BitVec.toNat_ushiftRight, Nat.shiftRight_eq_div_pow]

theorem byteSwap_eq (n : Nat) (v : BitVec (8 * n)) :
    byteSwap n v = BitVec.ofNat (8 * n) (number (digits n v.toNat).reverse) := by
  rw [byteSwap, loadLittle_eq, storeLittle_eq]

/-- The number of as many bytes as a word has is the word's. -/
theorem digits_toNat_ofNat_number {n : Nat} {bytes : List UInt8} (exact : bytes.length = n) :
    digits n (BitVec.ofNat (8 * n) (number bytes)).toNat = bytes := by
  rw [BitVec.toNat_ofNat, digits_mod, ← exact, digits_number]

theorem storeLittle_byteSwap (n : Nat) (v : BitVec (8 * n)) :
    storeLittle n (byteSwap n v) = (storeLittle n v).reverse := by
  have exact : (storeLittle n v).reverse.length = n := by
    rw [List.length_reverse, length_storeLittle]
  rw [storeLittle_eq n (byteSwap n v), byteSwap, loadLittle_eq, digits_toNat_ofNat_number exact]

theorem byteSwap_byteSwap (n : Nat) (v : BitVec (8 * n)) : byteSwap n (byteSwap n v) = v := by
  rw [byteSwap, storeLittle_byteSwap, List.reverse_reverse, storeLittle_eq, loadLittle_eq,
    number_digits, Nat.mod_eq_of_lt v.isLt, BitVec.ofNat_toNat, BitVec.setWidth_eq]

theorem getElem?_storeLittle {w : Nat} (n : Nat) (v : BitVec w) (i : Nat) :
    (storeLittle n v)[i]? =
      if i < n then some (UInt8.ofBitVec (v.extractLsb' (8 * i) 8)) else none := by
  induction n generalizing v i with
  | zero => simp [storeLittle]
  | succ n ih =>
    cases i with
    | zero =>
      have low : v.setWidth 8 = v.extractLsb' 0 8 := by
        rw [← BitVec.setWidth_ushiftRight_eq_extractLsb, BitVec.ushiftRight_zero]
      simp [storeLittle, low]
    | succ i =>
      have high : (v >>> 8).extractLsb' (8 * i) 8 = v.extractLsb' (8 * (i + 1)) 8 := by
        rw [← BitVec.setWidth_ushiftRight_eq_extractLsb,
          ← BitVec.setWidth_ushiftRight_eq_extractLsb, ← BitVec.shiftRight_add, Nat.mul_succ,
          Nat.add_comm]
      simp [storeLittle, ih, high]

/-- A swap leaves the bits of each byte in order and puts the byte in the place opposite its own. -/
theorem extractLsb'_byteSwap {n i : Nat} (v : BitVec (8 * n)) (inside : i < n) :
    (byteSwap n v).extractLsb' (8 * i) 8 = v.extractLsb' (8 * (n - 1 - i)) 8 := by
  have same := congrArg (·[i]?) (storeLittle_byteSwap n v)
  have opposite : n - 1 - i < n := by omega
  simp only [List.getElem?_reverse (l := storeLittle n v) (by simpa using inside),
    length_storeLittle, getElem?_storeLittle, if_pos inside, if_pos opposite] at same
  exact UInt8.ofBitVec.inj (Option.some.inj same)

/-! Words put together and taken apart byte by byte. -/

theorem appendByte_ofNat (high : Nat) (low : UInt8) :
    appendByte (UInt64.ofNat high) low = UInt64.ofNat (high <<< 8 ||| low.toNat) := by
  have shifted : UInt64.ofNat high <<< 8 = UInt64.ofNat (high <<< 8) := by
    apply UInt64.toNat_inj.mp
    simp [Nat.shiftLeft_eq]
  rw [appendByte, UInt64.ofNat_or, shifted]
  congr 1
  apply UInt64.toNat_inj.mp
  have small := low.toNat_lt
  rw [UInt8.toNat_toUInt64, UInt64.toNat_ofNat']
  omega

theorem foldl_appendByte_reverse (bytes : List UInt8) :
    bytes.reverse.foldl appendByte 0 = UInt64.ofNat (number bytes) := by
  induction bytes with
  | nil => rfl
  | cons b rest ih =>
    rw [List.reverse_cons, List.foldl_append, ih, List.foldl_cons, List.foldl_nil,
      appendByte_ofNat, number_cons_eq_or]

theorem assemble_eq (order : ByteOrder) (bytes : List UInt8) :
    assemble order bytes = UInt64.ofNat (number (order.arrange bytes)) := by
  cases order with
  | little => exact foldl_appendByte_reverse bytes
  | big =>
    have same := foldl_appendByte_reverse bytes.reverse
    rwa [List.reverse_reverse] at same

theorem lowBytes_eq (n : Nat) (value : UInt64) : lowBytes n value = digits n value.toNat := by
  induction n generalizing value with
  | zero => rfl
  | succ n ih =>
    have low : value.toUInt8 = UInt8.ofNat value.toNat := by
      apply UInt8.toNat_inj.mp
      simp
    have high : (value >>> 8).toNat = value.toNat / 256 := by
      simp [Nat.shiftRight_eq_div_pow]
    rw [lowBytes, ih, digits, low, high]

theorem disassemble_eq (order : ByteOrder) (n : Nat) (value : UInt64) :
    disassemble order n value = order.arrange (digits n value.toNat) := by
  cases order <;> simp only [disassemble, lowBytes_eq, ByteOrder.arrange]

end BinaryStream
