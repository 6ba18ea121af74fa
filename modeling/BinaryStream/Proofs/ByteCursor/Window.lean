import Mathlib.Algebra.Order.Ring.Nat
import BinaryStream.ByteCursor.Command

/-!
A byte cursor as a window and a place in it. In a framed cursor the window lies in the block and the
position in the window; every operation on bytes is then an equation about the window alone, with a
refusal where the range it asks for is not inside. A valid cursor is framed and has a bit count.
-/
namespace BinaryStream.ByteCursor

def window (c : ByteCursor) : List UInt8 := (c.data.drop c.start).take c.length

/-- The cursor's fields fit together, over a block whose length is a word. -/
structure Framed (c : ByteCursor) : Prop where
  data_word : c.data.length < Size.limit
  window_le : c.start + c.length ≤ c.data.length
  position_le : c.position ≤ c.length

/-- A framed cursor over a block whose bit count is a word too. -/
structure Valid (c : ByteCursor) : Prop extends Framed c where
  data_lt : c.data.length < 2 ^ 61

variable {c : ByteCursor}

theorem window_truncated {length : Nat} (inside : length ≤ c.length) (position : Nat) :
    window { c with length, position } = c.window.take length := by
  rw [window, window, List.take_take, Nat.min_eq_left inside]

theorem moved_here {position : Nat} (here : c.position = position) : { c with position } = c := by
  rw [← here]

theorem clamp_le (c : ByteCursor) (offset size : Nat) :
    (c.clamp offset size).1 + (c.clamp offset size).2 ≤ c.length := by
  simp only [clamp]
  omega

theorem Valid.of (data_lt : c.data.length < 2 ^ 61) (window_le : c.start + c.length ≤ c.data.length)
    (position_le : c.position ≤ c.length) : Valid c := by
  have word : c.data.length < Size.limit := by
    simp only [Size.limit]
    omega
  exact ⟨⟨word, window_le, position_le⟩, data_lt⟩

theorem Framed.truncated (h : Framed c) {length : Nat} (inside : length ≤ c.length) :
    Framed { c with length, position := min c.position length } := by
  have := h.window_le
  exact ⟨h.data_word, show c.start + length ≤ c.data.length by omega, Nat.min_le_right _ _⟩

theorem Valid.truncate_apply (length : Nat) :
    truncate length c =
      if length ≤ c.length then
        ⟨.value (), { c with length, position := min c.position length }, []⟩
      else Action.refuse (.outOfRange 0 length c.length) c := by
  simp only [truncate, Action.get_bind_apply]
  by_cases inside : length ≤ c.length
  · rw [if_neg (Nat.not_lt.mpr inside), if_pos inside]
    rfl
  · rw [if_pos (Nat.not_le.mp inside), if_neg inside]

namespace Framed

theorem length_lt (h : Framed c) : c.length < Size.limit := by
  have := h.data_word
  have := h.window_le
  omega

theorem length_window (h : Framed c) : c.window.length = c.length := by
  have := h.window_le
  simp only [window, List.length_take, List.length_drop]
  omega

theorem remaining_add_position (h : Framed c) : c.remaining + c.position = c.length :=
  Nat.sub_add_cancel h.position_le

theorem moved (h : Framed c) {position : Nat} (inside : position ≤ c.length) :
    Framed { c with position } :=
  ⟨h.data_word, h.window_le, inside⟩

/-! What a cursor shows. -/

theorem visible_eq (h : Framed c) : c.visible = .ok c.window := by
  rw [visible, Bytes.slice, if_pos h.window_le, window]

theorem part_eq (h : Framed c) {offset size : Nat} (inside : offset + size ≤ c.length) :
    c.part offset size = .ok ((c.window.drop offset).take size) := by
  rw [part, h.visible_eq]
  change Bytes.slice c.window offset size = _
  rw [Bytes.slice, if_pos (by rw [h.length_window]; exact inside)]

theorem rest_eq (h : Framed c) : c.rest = .ok (c.window.drop c.position) := by
  rw [rest, h.visible_eq]
  change Bytes.tail c.window c.position = _
  rw [Bytes.tail, if_pos (by rw [h.length_window]; exact h.position_le)]

/-- Clamping cuts off what lies outside of the window, and nothing else. -/
theorem window_clamp (h : Framed c) (offset size : Nat) :
    (c.window.drop (c.clamp offset size).1).take (c.clamp offset size).2 =
      (c.window.drop offset).take size := by
  have len := h.length_window
  simp only [clamp]
  by_cases past : c.length ≤ offset
  · have none : c.window.drop offset = [] := List.drop_of_length_le (by omega)
    have cut : c.window.drop c.length = [] := List.drop_of_length_le (by omega)
    rw [Nat.min_eq_right past, none, cut, List.take_nil, List.take_nil]
  · have rest : (c.window.drop offset).length = c.length - offset := by
      rw [List.length_drop, len]
    have first : min offset c.length = offset := by omega
    rw [first, ← rest, ← List.take_eq_take_min]

theorem part_clamp_eq (h : Framed c) (offset size : Nat) :
    c.part (c.clamp offset size).1 (c.clamp offset size).2 =
      .ok ((c.window.drop offset).take size) := by
  rw [h.part_eq (c.clamp_le offset size), h.window_clamp]

/-! Moves. -/

theorem advance_apply (h : Framed c) {size : Nat} (inside : c.position + size ≤ c.length) :
    advance size c = ⟨.value (), { c with position := c.position + size }, []⟩ := by
  have word : c.position + size < Size.limit := Nat.lt_of_le_of_lt inside h.length_lt
  simp only [advance, Action.get_bind_apply, Size.sum_of_lt word, Action.ofExcept_ok,
    Action.pure_bind_apply, Action.modify_apply]

theorem advance_bind_apply (h : Framed c) {α : Type} {size : Nat}
    (inside : c.position + size ≤ c.length) (f : Unit → Action ByteCursor AccessError α) :
    (advance size >>= f) c = f () { c with position := c.position + size } := by
  rw [Action.bind_of_value (h.advance_apply inside), Reply.after_nil]

theorem seek_apply (h : Framed c) (position : Nat) :
    seek position c =
      if position ≤ c.length then ⟨.value (), { c with position }, []⟩
      else Action.refuse (.outOfRange position 0 c.length) c := by
  simp only [seek, Action.get_bind_apply, Action.checkRange_bind_apply h.length_lt,
    Action.modify_apply, Nat.add_zero]

theorem skip_apply (h : Framed c) (size : Nat) :
    skip size c =
      if c.position + size ≤ c.length then
        ⟨.value (), { c with position := c.position + size }, []⟩
      else Action.refuse (.outOfRange c.position size c.length) c := by
  simp only [skip, Action.get_bind_apply, Action.checkRange_bind_apply h.length_lt]
  split
  · rw [h.advance_apply ‹_›]
  · rfl

theorem skipIf_apply (h : Framed c) (expected : List UInt8) :
    skipIf expected c =
      if expected <+: c.window.drop c.position then
        ⟨.value true, { c with position := c.position + expected.length }, []⟩
      else ⟨.value false, c, []⟩ := by
  simp only [skipIf, Action.get_bind_apply, h.rest_eq, Action.ofExcept_ok, Action.pure_bind_apply,
    List.isPrefixOf_iff_prefix]
  split
  · rename_i found
    have fits : c.position + expected.length ≤ c.length := by
      have shorter := found.length_le
      have := h.position_le
      rw [List.length_drop, h.length_window] at shorter
      omega
    rw [h.advance_bind_apply fits]
    rfl
  · rfl

theorem all_apply (h : Framed c) : all c = ⟨.value c.window, c, []⟩ := by
  simp only [all, Action.get_bind_apply, h.visible_eq, Action.ofExcept_ok, Action.pure_apply]

end Framed

end BinaryStream.ByteCursor
