import BinaryStream.Proofs.ByteCursor.Window

/-!
Reads of a framed byte cursor as equations about its window: strict reads are refused outside of it,
tolerant ones are cut off at its end, and only sequential ones move, past what they return.
-/
namespace BinaryStream

/-- How a refusal reports the size that was asked for: one that is no word as the largest word. -/
def Size.reported (size : Nat) : Nat := if size < limit then size else top

namespace ByteCursor.Framed

variable {c : ByteCursor}

/-! Strict reads. -/

theorem readAt_apply (h : Framed c) (offset size : Nat) :
    readAt offset size c =
      if offset + size ≤ c.length then ⟨.value ((c.window.drop offset).take size), c, []⟩
      else Action.refuse (.outOfRange offset size c.length) c := by
  simp only [readAt, Action.get_bind_apply, Action.checkRange_bind_apply h.length_lt]
  split
  · rw [h.part_eq ‹_›]
    rfl
  · rfl

theorem peek_apply (h : Framed c) (size : Nat) :
    peek size c =
      if c.position + size ≤ c.length then ⟨.value ((c.window.drop c.position).take size), c, []⟩
      else Action.refuse (.outOfRange c.position size c.length) c :=
  h.readAt_apply c.position size

theorem read_apply (h : Framed c) (size : Nat) :
    read size c =
      if c.position + size ≤ c.length then
        ⟨.value ((c.window.drop c.position).take size),
          { c with position := c.position + size }, []⟩
      else Action.refuse (.outOfRange c.position size c.length) c := by
  rw [read, Action.bind_of_ite _ (h.peek_apply size)]
  split
  · rw [h.advance_bind_apply ‹_›]
    rfl
  · rfl

/-! Tolerant reads. -/

theorem readUpToAt_apply (h : Framed c) (offset size : Nat) :
    readUpToAt offset size c = ⟨.value ((c.window.drop offset).take size), c, []⟩ := by
  simp only [readUpToAt, Action.get_bind_apply, h.part_clamp_eq, Action.ofExcept_ok,
    Action.pure_apply]

theorem readUpTo_apply (h : Framed c) (size : Nat) :
    readUpTo size c =
      ⟨.value ((c.window.drop c.position).take size),
        { c with position := c.position + min size c.remaining }, []⟩ := by
  have place : min c.position c.length = c.position := Nat.min_eq_left h.position_le
  have word : c.position + min size (c.length - c.position) < Size.limit := by
    have := h.length_lt
    have := h.position_le
    omega
  simp only [readUpTo, Action.get_bind_apply, h.part_clamp_eq, Action.ofExcept_ok,
    Action.pure_bind_apply]
  simp only [clamp, place, Size.sum_of_lt word, Action.ofExcept_ok, Action.pure_bind_apply,
    Action.modify_bind_apply, Action.pure_apply, remaining]

theorem fillUpToAt_apply (h : Framed c) (offset : Nat) (buffer : List UInt8) :
    fillUpToAt offset buffer c =
      ⟨.value (min buffer.length (c.length - offset),
        (c.window.drop offset).take buffer.length ++
          buffer.drop (min buffer.length (c.length - offset))), c, []⟩ := by
  have len := h.length_window
  have count : min buffer.length (c.length - min offset c.length) =
      min buffer.length (c.length - offset) := by omega
  have copied : ((c.window.drop offset).take buffer.length).length =
      min buffer.length (c.length - offset) := by
    rw [List.length_take, List.length_drop, len]
  have stored : Bytes.store buffer 0 ((c.window.drop offset).take buffer.length) =
      .ok ((c.window.drop offset).take buffer.length ++
        buffer.drop (min buffer.length (c.length - offset))) := by
    rw [Bytes.store, Bytes.overwrite, copied, if_pos (by omega), List.take_zero, List.nil_append,
      Nat.zero_add]
  simp only [fillUpToAt, Action.get_bind_apply, h.part_clamp_eq, Action.ofExcept_ok,
    Action.pure_bind_apply, stored, Action.pure_apply]
  simp only [clamp, count]

theorem fillUpTo_apply (h : Framed c) (buffer : List UInt8) :
    fillUpTo buffer c =
      ⟨.value (min buffer.length c.remaining,
        (c.window.drop c.position).take buffer.length ++
          buffer.drop (min buffer.length c.remaining)),
        { c with position := c.position + min buffer.length c.remaining }, []⟩ := by
  have inside : c.position + min buffer.length (c.length - c.position) ≤ c.length := by
    have := h.position_le
    omega
  rw [fillUpTo, Action.get_bind_apply, Action.bind_of_value (h.fillUpToAt_apply c.position buffer),
    Reply.after_nil]
  simp only
  rw [h.advance_bind_apply inside]
  rfl

/-! Typed reads. -/

theorem decodeSlice_of_length {l : Layout} {bytes : List UInt8} (exact : bytes.length = l.size) :
    l.decodeSlice bytes = .ok (l.decode bytes) := by
  rw [l.decodeSlice_eq, if_pos (by omega), List.take_of_length_le (by omega)]

theorem length_part (h : Framed c) {offset size : Nat} (inside : offset + size ≤ c.length) :
    ((c.window.drop offset).take size).length = size := by
  rw [List.length_take, List.length_drop, h.length_window]
  omega

theorem getAt_apply (h : Framed c) (l : Layout) (offset : Nat) :
    getAt l offset c =
      if offset + l.size ≤ c.length then
        ⟨.value (l.decode ((c.window.drop offset).take l.size)), c, []⟩
      else Action.refuse (.outOfRange offset l.size c.length) c := by
  rw [getAt, Action.bind_of_ite _ (h.readAt_apply offset l.size)]
  split
  · rw [decodeSlice_of_length (h.length_part ‹_›)]
    rfl
  · rfl

theorem get_apply (h : Framed c) (l : Layout) :
    get l c =
      if c.position + l.size ≤ c.length then
        ⟨.value (l.decode ((c.window.drop c.position).take l.size)),
          { c with position := c.position + l.size }, []⟩
      else Action.refuse (.outOfRange c.position l.size c.length) c := by
  rw [get, Action.get_bind_apply, Action.bind_of_ite _ (h.getAt_apply l c.position)]
  split
  · rw [h.advance_bind_apply ‹_›]
    rfl
  · rfl

/-- An array is refused as a whole; one whose size is no word as one of the largest size. -/
theorem getArrayAt_apply (h : Framed c) (l : Layout) (offset count : Nat) :
    getArrayAt l offset count c =
      if offset + count * l.size ≤ c.length then
        ⟨.value (l.decodeAll count ((c.window.drop offset).take (count * l.size))), c, []⟩
      else Action.refuse (.outOfRange offset (Size.reported (count * l.size)) c.length) c := by
  have small := h.length_lt
  simp only [getArrayAt, Action.get_bind_apply, Size.mul?, Size.reported]
  by_cases word : count * l.size < Size.limit
  · simp only [if_pos word]
    rw [Action.bind_of_ite _ (h.readAt_apply offset (count * l.size))]
    rfl
  · have outside : ¬ offset + count * l.size ≤ c.length := by omega
    simp only [if_neg word, if_neg outside]

theorem getArray_apply (h : Framed c) (l : Layout) (count : Nat) :
    getArray l count c =
      if c.position + count * l.size ≤ c.length then
        ⟨.value (l.decodeAll count ((c.window.drop c.position).take (count * l.size))),
          { c with position := c.position + count * l.size }, []⟩
      else Action.refuse (.outOfRange c.position (Size.reported (count * l.size)) c.length) c := by
  rw [getArray, Action.get_bind_apply, Action.bind_of_ite _ (h.getArrayAt_apply l c.position count)]
  split
  · rename_i inside
    have word : count * l.size < Size.limit :=
      Nat.lt_of_le_of_lt (Nat.le_trans (Nat.le_add_left _ _) inside) h.length_lt
    rw [Size.product_of_lt word, Action.ofExcept_ok, Action.pure_bind_apply,
      h.advance_bind_apply inside]
    rfl
  · rfl

end ByteCursor.Framed

end BinaryStream
