import BinaryStream.Proofs.BitBuffer
import BinaryStream.Proofs.BitCursor.Tape
import BinaryStream.Proofs.ByteBuffer
import BinaryStream.Proofs.ByteCursor.Chain
import BinaryStream.Proofs.Scalar

/-!
Bits and bytes agree on numbers. Bits stand most significant first, as bytes do in big endian order,
so the number of some bits is that of the bytes they cover, without what stands behind them and
before them. What bit streams and byte streams read and write of unsigned integers is then the same.
-/
namespace BinaryStream

open Bytes

/-! Numbers. -/

/-- The bytes in which a field of bits lies. -/
def Bytes.covering (block : List UInt8) (position width : Nat) : List UInt8 :=
  (block.drop (position / 8)).take ((position + width + 7) / 8 - position / 8)

theorem numeral_bits (block : List UInt8) : numeral (bits block) = bigEndian block := by
  induction block with
  | nil => rfl
  | cons b block ih =>
    have byte : b.toNat % 2 ^ 8 = b.toNat := Nat.mod_eq_of_lt b.toNat_lt
    rw [bits_cons, numeral_append, numeral_field, byte, ih, length_bits, bigEndian, bigEndian,
      List.reverse_cons, number_append, List.length_reverse, Nat.mul_comm, Nat.add_comm]
    simp [number]

/-- A stretch of bits is what is left of their number without the bits behind and before it. -/
theorem numeral_stretch {bits : List Bool} {skip width : Nat}
    (inside : skip + width ≤ bits.length) :
    numeral ((bits.drop skip).take width) =
      numeral bits / 2 ^ (bits.length - (skip + width)) % 2 ^ width := by
  have cut : bits =
      bits.take skip ++ ((bits.drop skip).take width ++ bits.drop (skip + width)) := by
    rw [← List.drop_drop, List.take_append_drop, List.take_append_drop]
  have size : ((bits.drop skip).take width).length = width := by
    rw [List.length_take, List.length_drop]
    omega
  have below := numeral_lt (bits.drop (skip + width))
  have within := numeral_lt ((bits.drop skip).take width)
  rw [List.length_drop] at below
  rw [size] at within
  have value : numeral bits = numeral (bits.drop (skip + width)) +
      (numeral (bits.take skip) * 2 ^ width + numeral ((bits.drop skip).take width)) *
        2 ^ (bits.length - (skip + width)) := by
    rw [congrArg numeral cut, numeral_append, numeral_append, List.length_append, size,
      List.length_drop, Nat.pow_add, ← Nat.mul_assoc, ← Nat.add_assoc, ← Nat.add_mul, Nat.add_comm]
  rw [value, Nat.add_mul_div_right _ _ (Nat.two_pow_pos _), Nat.div_eq_of_lt below, Nat.zero_add,
    Nat.mul_add_mod_self_right, Nat.mod_eq_of_lt within]

/-- A field of bits is cut by division and remainder out of the bytes that it lies in. -/
theorem numeral_covering {block : List UInt8} {position width : Nat}
    (inside : position + width ≤ 8 * block.length) :
    numeral (((bits block).drop position).take width) =
      bigEndian (covering block position width) /
        2 ^ (8 * ((position + width + 7) / 8) - (position + width)) % 2 ^ width := by
  have size : (covering block position width).length =
      (position + width + 7) / 8 - position / 8 := by
    rw [covering, List.length_take, List.length_drop]
    omega
  have same : ((bits (covering block position width)).drop (position % 8)).take width =
      ((bits block).drop position).take width := by
    have start : 8 * (position / 8) + position % 8 = position := Nat.div_add_mod position 8
    rw [covering, bits_take, bits_drop, List.drop_take, List.take_take, List.drop_drop, start,
      Nat.min_eq_left (by omega)]
  have fits : position % 8 + width ≤ (bits (covering block position width)).length := by
    rw [length_bits, size]
    omega
  have behind : 8 * ((position + width + 7) / 8 - position / 8) - (position % 8 + width) =
      8 * ((position + width + 7) / 8) - (position + width) := by omega
  rw [← same, numeral_stretch fits, numeral_bits, length_bits, size, behind]

theorem numeral_bytes (block : List UInt8) (offset size : Nat) :
    numeral (((bits block).drop (8 * offset)).take (8 * size)) =
      bigEndian ((block.drop offset).take size) := by
  rw [← bits_drop, ← bits_take, numeral_bits]

/-! Unsigned integers in big endian order. -/

theorem Scalar.toNat_decode_big {w : Width} {bytes : List UInt8} (exact : bytes.length = w.size) :
    ((Scalar.unsigned w).decode .big bytes).toNat = bigEndian bytes :=
  Scalar.toNat_decode (t := .unsigned w) nofun .big exact

theorem Scalar.bits_encode_big (t : Scalar) (value : t.Value) :
    bits (t.encode .big value) = field value.toNat (8 * t.size) := by
  have whole := field_numeral (bits (t.encode .big value))
  rw [length_bits, t.length_encode] at whole
  rw [← whole, numeral_bits, t.encode_eq, bigEndian, ByteOrder.arrange, List.reverse_reverse,
    number_digits, field_mod]

/-! Cursors. -/

/-- A cursor over bits and one over bytes that give the same numbers: unsigned integers at every
byte, and fields of bits by the bytes that they lie in. -/
structure SameNumbers (b : BitCursor) (v : ByteCursor) : Prop where
  integers (k : Nat) (w : Width) :
    let read := (BitCursor.readAt (8 * k) (8 * w.size) b).outcome
    let got := (ByteCursor.getAt ⟨.big, .unsigned w⟩ k v).outcome
    ((∃ word, read = .value word) ↔ ∃ value, got = .value value) ∧
      ∀ word value, read = .value word → got = .value value → word.toNat = value.toNat
  fields (position width : Nat) (narrow : width ≤ 64) :
    let read := (BitCursor.readAt position width b).outcome
    ((∃ word, read = .value word) ↔ position + width ≤ 8 * v.length) ∧
      ∀ word, read = .value word → word.toNat =
        bigEndian (covering v.window position width) /
          2 ^ (8 * ((position + width + 7) / 8) - (position + width)) % 2 ^ width

namespace SameNumbers

variable {b : BitCursor} {v : ByteCursor}

theorem readAt_apply (hb : b.Framed) (hv : v.Framed) (shows : b.visible = bits v.window)
    {position width : Nat} (narrow : width ≤ 64) :
    BitCursor.readAt position width b =
      if position + width ≤ 8 * v.length then
        ⟨.value (UInt64.ofNat (numeral (((bits v.window).drop position).take width))), b, []⟩
      else Action.refuse (.outOfRange position width (8 * v.length)) b := by
  have length : b.length = 8 * v.length := by
    rw [← hb.length_visible, shows, length_bits, hv.length_window]
  rw [hb.readAt_apply, if_neg (Nat.not_lt.mpr narrow), shows, length]

theorem toNat_word {position width : Nat} (narrow : width ≤ 64) (bits : List Bool) :
    (UInt64.ofNat (numeral ((bits.drop position).take width))).toNat =
      numeral ((bits.drop position).take width) := by
  apply toNat_ofNat_numeral
  rw [List.length_take]
  omega

theorem of_visible (hb : b.Framed) (hv : v.Framed) (shows : b.visible = bits v.window) :
    SameNumbers b v where
  integers k w := by
    intro read got
    have narrow : 8 * w.size ≤ 64 := by cases w <;> decide
    have ran : read = _ := congrArg Reply.outcome (readAt_apply hb hv shows narrow)
    have ran' : got = _ := congrArg Reply.outcome (hv.getAt_apply ⟨.big, .unsigned w⟩ k)
    rw [ran, ran']
    by_cases inside : k + w.size ≤ v.length
    · have within : 8 * k + 8 * w.size ≤ 8 * v.length := by omega
      have exact := hv.length_part inside
      rw [if_pos within, if_pos (by exact inside)]
      refine ⟨⟨fun _ => ⟨_, rfl⟩, fun _ => ⟨_, rfl⟩⟩, ?_⟩
      rintro word value ⟨⟩ ⟨⟩
      rw [toNat_word narrow, numeral_bytes]
      exact (Scalar.toNat_decode_big exact).symm
    · have without : ¬ 8 * k + 8 * w.size ≤ 8 * v.length := by omega
      rw [if_neg without, if_neg (by exact inside)]
      simp
  fields position width narrow := by
    intro read
    have ran : read = _ := congrArg Reply.outcome (readAt_apply hb hv shows narrow)
    rw [ran]
    by_cases inside : position + width ≤ 8 * v.length
    · rw [if_pos inside]
      refine ⟨⟨fun _ => inside, fun _ => ⟨_, rfl⟩⟩, ?_⟩
      rintro word ⟨⟩
      rw [toNat_word narrow, numeral_covering (by rwa [hv.length_window])]
    · rw [if_neg inside]
      simp [inside]

end SameNumbers

namespace ByteCursor.Valid

variable {c : ByteCursor}

/-- A view of bits and a view of bytes of the same range are made or refused alike. -/
theorem views_sameNumbers (h : Valid c) (range : Range) :
    (bitView range c).outcome.Related SameNumbers (view range c).outcome := by
  rw [h.bitView_apply, h.view_cursor]
  by_cases fits : range.Fits c
  · rw [if_pos fits, if_pos (by exact fits)]
    have valid := h.cursor_valid fits
    have shows := h.visible_bitCursor fits
    rw [← h.window_cursor fits] at shows
    exact .value (.of_visible (BitCursor.Valid.viewed h fits).framed valid.toFramed shows)
  · rw [if_neg fits, if_neg (by exact fits)]
    exact .error _

end ByteCursor.Valid

/-! Buffers. -/

namespace BitBuffer

variable {b : BitBuffer} {l : List Bool}

theorem Represents.unset_of_whole (h : Represents b l) (whole : 8 ∣ l.length) : b.unset = 0 := by
  have := h.length_eq
  have := h.unset_lt
  omega

/-- Behind whole bytes an unsigned integer is written as its bytes; what a wider word has above them
is left out. -/
theorem Represents.writeBits_whole {ε : Type} (h : Represents b l) (whole : 8 ∣ l.length)
    (w : Width) (value : (Scalar.unsigned w).Value) :
    ∃ b', (writeBits (UInt64.ofNat value.toNat) (8 * w.size) : Action BitBuffer ε Unit) b =
        ⟨.value (), b', []⟩ ∧ b'.unset = 0 ∧
      b'.data = b.data ++ (Scalar.unsigned w).encode .big value := by
  have narrow : 8 * w.size ≤ 64 := by cases w <;> decide
  have widest : 8 * w.valueSize ≤ 64 := by cases w <;> decide
  have word : (UInt64.ofNat value.toNat).toNat = value.toNat := by
    rw [UInt64.toNat_ofNat']
    exact Nat.mod_eq_of_lt
      (Nat.lt_of_lt_of_le value.isLt (Nat.pow_le_pow_right (by decide) widest))
  obtain ⟨b', wrote, held⟩ := writeBits_represents ε h (UInt64.ofNat value.toNat) narrow
  rw [word] at held
  have unset := h.unset_of_whole whole
  have unset' : b'.unset = 0 := by
    apply held.unset_of_whole
    rw [List.length_append, length_field]
    omega
  have before := h.bits_eq
  have after := held.bits_eq
  rw [unset, List.replicate_zero, List.append_nil] at before
  rw [unset', List.replicate_zero, List.append_nil] at after
  refine ⟨b', wrote, unset', bits_injective ?_⟩
  rw [after, bits_append, before, Scalar.bits_encode_big]
  rfl

end BitBuffer

/-- Reading, a view of bits and a view of bytes are made under the same condition, and the numbers
at every byte are the same; at any bit, a field is the number of the bytes it lies in, divided by
the power of two that stands for the bits behind it and reduced to its width. Writing, an unsigned
integer behind whole bytes adds the same bytes to a buffer of bits as to one of bytes, whatever its
word holds above the width. -/
theorem bits_agree_with_bytes (ε : Type) :
    (∀ c : ByteCursor, c.Reachable → ∀ a n : Nat,
      (ByteCursor.bitView (.exact a n) c).outcome.Related SameNumbers
        (ByteCursor.view (.exact a n) c).outcome ∧
      ((∃ v, (ByteCursor.view (.exact a n) c).outcome = .value v) ↔ a + n ≤ c.length)) ∧
    ∀ (commands : List BitBuffer.Command) (w : Width) (value : (Scalar.unsigned w).Value),
      let b := BitBuffer.after commands
      8 ∣ b.size →
      ∃ b' added, (BitBuffer.writeBits (UInt64.ofNat value.toNat) (8 * w.size) :
          Action BitBuffer ε Unit) b = ⟨.value (), b', []⟩ ∧
        b'.unset = 0 ∧ b'.data = b.data ++ added ∧
        ∀ bytes : ByteBuffer, bytes.size + w.size < Size.blockLimit →
          (ByteBuffer.put ⟨.big, .unsigned w⟩ value : Action ByteBuffer ε Unit) bytes =
            ⟨.value (), ⟨bytes.bytes ++ added⟩, []⟩ := by
  constructor
  · intro c reached a n
    refine ⟨reached.valid.views_sameNumbers (.exact a n), ?_⟩
    rw [reached.valid.view_cursor]
    by_cases fits : a + n ≤ c.length
    · rw [if_pos (by exact fits)]
      simp [fits]
    · rw [if_neg (by exact fits)]
      simp [fits]
  · intro commands w value b whole
    have held := BitBuffer.after_represents commands
    obtain ⟨b', wrote, unset, data⟩ :=
      held.writeBits_whole (ε := ε) (by rwa [← held.size_eq]) w value
    refine ⟨b', _, wrote, unset, data, ?_⟩
    intro bytes room
    exact (ByteBuffer.put_apply ⟨.big, .unsigned w⟩ value bytes).trans (if_pos room)

/-- A field of ten bits over three bytes, and a word wider than 24 bits behind a whole byte. -/
theorem bits_agree_with_bytes_wide :
    let c := ByteCursor.ofBytes [0x00, 0xA5, 0x3C, 0xFF, 0x01]
    (∃ b word, (ByteCursor.bitView (.exact 1 3) c).outcome = .value b ∧
      (BitCursor.readAt 7 10 b).outcome = .value word ∧
      word.toNat = 0xA53CFF / 2 ^ 7 % 2 ^ 10) ∧
    ∃ b', (BitBuffer.writeBits 0xAA010203 24 : Action BitBuffer Empty Unit)
        (BitBuffer.after [.writeBits 0x7F 8]) = ⟨.value (), b', []⟩ ∧
      b'.data = [0x7F, 0x01, 0x02, 0x03] := by
  intro c
  constructor
  · have bits : (ByteCursor.bitView (.exact 1 3) c).outcome =
        .value ⟨[0x00, 0xA5, 0x3C, 0xFF, 0x01], 1, 24, 0⟩ := by decide
    have bytes : (ByteCursor.view (.exact 1 3) c).outcome =
        .value ⟨[0x00, 0xA5, 0x3C, 0xFF, 0x01], 1, 3, 0⟩ := by decide
    obtain ⟨views, -⟩ := (bits_agree_with_bytes Empty).1 c (.whole (by decide)) 1 3
    rw [bits, bytes] at views
    cases views with
    | value same =>
      obtain ⟨answered, number⟩ := same.fields 7 10 (by decide)
      obtain ⟨word, read⟩ := answered.mpr (by decide)
      exact ⟨_, word, bits, read, (number word read).trans rfl⟩
  · have one : BitBuffer.after [.writeBits 0x7F 8] = ⟨[0x7F], 0⟩ :=
      (BitBuffer.after_represents _).buffer_unique ⟨by decide, rfl⟩
    obtain ⟨b', added, wrote, -, data, same⟩ :=
      (bits_agree_with_bytes Empty).2 [.writeBits 0x7F 8] .w24 0xAA010203 (by rw [one]; decide)
    have put : (ByteBuffer.put ⟨.big, .unsigned .w24⟩ 0xAA010203 : Action ByteBuffer Empty Unit)
        .empty = ⟨.value (), ⟨[0x01, 0x02, 0x03]⟩, []⟩ := by decide
    cases (same .empty (by decide)).symm.trans put
    exact ⟨b', wrote, data.trans (by rw [one]; rfl)⟩

end BinaryStream
