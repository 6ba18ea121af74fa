import BinaryStream.Proofs.BitCursor.Gather

/-!
A bit cursor as a window of bits and a place in it. In a framed cursor the window lies in the block
and the position in the window; every operation is then an equation about the bits of the window,
with a refusal where the range it asks for is not inside and a fault where it asks for more than a
word. A valid cursor is framed, over a block whose bit count is a word.
-/
namespace BinaryStream.BitCursor

open Bytes

def visible (c : BitCursor) : List Bool := ((bits c.data).drop (8 * c.start)).take c.length

/-- The `n` bits from the position on. -/
def next (c : BitCursor) (n : Nat) : List Bool := (c.visible.drop c.position).take n

/-- The cursor's fields fit together, over a block of any size; the window may end inside of a
byte. -/
structure Framed (c : BitCursor) : Prop where
  length_lt : c.length < Size.limit
  start_le : c.start ≤ c.data.length
  length_le : c.length ≤ 8 * (c.data.length - c.start)
  position_le : c.position ≤ c.length

/-- The cursor's fields fit together; the window may end inside of a byte. -/
structure Valid (c : BitCursor) : Prop where
  data_lt : c.data.length < 2 ^ 61
  start_le : c.start ≤ c.data.length
  length_le : c.length ≤ 8 * (c.data.length - c.start)
  position_le : c.position ≤ c.length

variable {c : BitCursor}

theorem truncate_apply (length : Nat) :
    truncate length c =
      if length ≤ c.length then
        ⟨.value (), { c with length, position := min c.position length }, []⟩
      else Action.refuse (.outOfRange 0 length c.length) c := by
  simp only [truncate, Action.get_bind_apply]
  by_cases inside : length ≤ c.length
  · rw [if_neg (Nat.not_lt.mpr inside), if_pos inside]
    rfl
  · rw [if_pos (Nat.not_le.mp inside), if_neg inside]

theorem next_add (c : BitCursor) (m n : Nat) :
    c.next (m + n) = c.next m ++ next { c with position := c.position + m } n := by
  rw [next, List.take_add, List.drop_drop]
  rfl

namespace Framed

theorem length_visible (h : Framed c) : c.visible.length = c.length := by
  have := h.length_le
  simp only [visible, List.length_take, List.length_drop, length_bits]
  omega

theorem length_next (h : Framed c) {n : Nat} (inside : n ≤ c.remaining) :
    (c.next n).length = n := by
  have := h.position_le
  simp only [remaining] at inside
  simp only [next, List.length_take, List.length_drop, h.length_visible]
  omega

/-- The word that a read of the next bits gives has these bits. -/
theorem field_word_next (h : Framed c) {n : Nat} (narrow : n ≤ 64) (inside : n ≤ c.remaining) :
    field (UInt64.ofNat (numeral (c.next n))).toNat n = c.next n := by
  have length := h.length_next inside
  rw [toNat_ofNat_numeral (by rwa [length])]
  have same := field_numeral (c.next n)
  rwa [length] at same

theorem extract_eq (h : Framed c) {position width : Nat} (narrow : width ≤ 64)
    (inside : position + width ≤ c.length) :
    c.extract position width =
      .ok (UInt64.ofNat (numeral ((c.visible.drop position).take width))) := by
  have room := h.length_le
  have tail : Bytes.tail c.data c.start = .ok (c.data.drop c.start) := by
    rw [Bytes.tail, if_pos h.start_le]
  have field : ((bits (c.data.drop c.start)).drop position).take width =
      (c.visible.drop position).take width := by
    rw [visible, bits_drop, List.drop_take, List.take_take, Nat.min_eq_left (by omega)]
  obtain ⟨word, ran, value⟩ := Gather.run_eq (c.data.drop c.start) (g := ⟨position, width, 0⟩)
    (by rw [List.length_drop]; exact Nat.le_trans inside room)
    (by simpa using Nat.pow_le_pow_right (by decide : 0 < 2) narrow)
  have word_eq : word = UInt64.ofNat (numeral ((c.visible.drop position).take width)) := by
    rw [← field, ← UInt64.ofNat_toNat (x := word), value]
    simp
  rw [extract, tail]
  exact ran.trans (congrArg Except.ok word_eq)

theorem moved (h : Framed c) {position : Nat} (inside : position ≤ c.length) :
    Framed { c with position } :=
  ⟨h.length_lt, h.start_le, h.length_le, inside⟩

theorem truncated (h : Framed c) {length : Nat} (inside : length ≤ c.length) :
    Framed { c with length, position := min c.position length } :=
  ⟨Nat.lt_of_le_of_lt inside h.length_lt, h.start_le, Nat.le_trans inside h.length_le,
    Nat.min_le_right _ _⟩

theorem advance_apply (h : Framed c) {bits : Nat} (inside : c.position + bits ≤ c.length) :
    advance bits c = ⟨.value (), { c with position := c.position + bits }, []⟩ := by
  have word : c.position + bits < Size.limit := Nat.lt_of_le_of_lt inside h.length_lt
  simp only [advance, Action.get_bind_apply, Size.sum_of_lt word, Action.ofExcept_ok,
    Action.pure_bind_apply, Action.modify_apply]

theorem seek_apply (h : Framed c) (position : Nat) :
    seek position c =
      if position ≤ c.length then ⟨.value (), { c with position }, []⟩
      else Action.refuse (.outOfRange position 0 c.length) c := by
  simp only [seek, Action.get_bind_apply, Action.checkRange_bind_apply h.length_lt,
    Action.modify_apply, Nat.add_zero]

theorem skip_apply (h : Framed c) (bits : Nat) :
    skip bits c =
      if c.position + bits ≤ c.length then
        ⟨.value (), { c with position := c.position + bits }, []⟩
      else Action.refuse (.outOfRange c.position bits c.length) c := by
  simp only [skip, Action.get_bind_apply, Action.checkRange_bind_apply h.length_lt]
  split
  · rw [h.advance_apply ‹_›]
  · rfl

/-- The width is looked at before the range. -/
theorem readAt_apply (h : Framed c) (position width : Nat) :
    readAt position width c =
      if 64 < width then ⟨.fault (.readWidth width), c, []⟩
      else if position + width ≤ c.length then
        ⟨.value (UInt64.ofNat (numeral ((c.visible.drop position).take width))), c, []⟩
      else Action.refuse (.outOfRange position width c.length) c := by
  rw [readAt]
  by_cases wide : 64 < width
  · rw [if_pos wide, if_pos wide]
    rfl
  · rw [if_neg wide, if_neg wide, Action.get_bind_apply,
      Action.checkRange_bind_apply h.length_lt]
    split
    · rw [h.extract_eq (Nat.not_lt.mp wide) ‹_›]
      rfl
    · rfl

theorem peek_apply (h : Framed c) (width : Nat) :
    peek width c =
      if 64 < width then ⟨.fault (.readWidth width), c, []⟩
      else if c.position + width ≤ c.length then
        ⟨.value (UInt64.ofNat (numeral ((c.visible.drop c.position).take width))), c, []⟩
      else Action.refuse (.outOfRange c.position width c.length) c :=
  h.readAt_apply c.position width

theorem read_apply (h : Framed c) (width : Nat) :
    read width c =
      if 64 < width then ⟨.fault (.readWidth width), c, []⟩
      else if c.position + width ≤ c.length then
        ⟨.value (UInt64.ofNat (numeral ((c.visible.drop c.position).take width))),
          { c with position := c.position + width }, []⟩
      else Action.refuse (.outOfRange c.position width c.length) c := by
  have peeked := h.peek_apply width
  by_cases wide : 64 < width
  · rw [if_pos wide] at peeked ⊢
    rw [read, Action.bind_apply, peeked]
  · rw [if_neg wide] at peeked ⊢
    rw [read, Action.bind_of_ite _ peeked]
    split
    · rw [Action.bind_of_value (h.advance_apply ‹_›)]
      rfl
    · rfl

end Framed

namespace Valid

theorem framed (h : Valid c) : Framed c := by
  refine ⟨?_, h.start_le, h.length_le, h.position_le⟩
  have := h.data_lt
  have := h.length_le
  simp only [Size.limit]
  omega

theorem length_visible (h : Valid c) : c.visible.length = c.length := h.framed.length_visible

theorem moved (h : Valid c) {position : Nat} (inside : position ≤ c.length) :
    Valid { c with position } :=
  ⟨h.data_lt, h.start_le, h.length_le, inside⟩

theorem truncated (h : Valid c) {length : Nat} (inside : length ≤ c.length) :
    Valid { c with length, position := min c.position length } :=
  ⟨h.data_lt, h.start_le, Nat.le_trans inside h.length_le, Nat.min_le_right _ _⟩

end Valid

theorem ofBytes_of_lt {data : List UInt8} (small : data.length < 2 ^ 61) :
    ofBytes data = .ok ⟨data, 0, data.length * 8, 0⟩ := by
  have word : data.length * 8 < Size.limit := by
    simp only [Size.limit]
    omega
  rw [ofBytes, bitCount, Size.product_of_lt word]
  rfl

theorem Valid.whole {data : List UInt8} (small : data.length < 2 ^ 61) :
    Valid ⟨data, 0, data.length * 8, 0⟩ :=
  ⟨small, Nat.zero_le _, Nat.le_of_eq (Nat.mul_comm _ _), Nat.zero_le _⟩

end BinaryStream.BitCursor
