import BinaryStream.Proofs.ByteCursor.Reads

/-!
Texts and views of a byte cursor as equations about its window. A text ends inside of the window or
is refused; a view is a cursor on the same block whose window lies in this one.
-/
namespace BinaryStream.ByteCursor

variable {c : ByteCursor}

namespace Framed

/-! Texts. -/

theorem length_takeWhile_lt_iff (p : UInt8 → Bool) (bytes : List UInt8) :
    (bytes.takeWhile p).length < bytes.length ↔ ∃ b ∈ bytes, p b = false := by
  induction bytes with
  | nil => simp
  | cons b bytes ih =>
    cases found : p b with
    | false => simp [found]
    | true => simp [found, ih]

theorem takeWhile_ne_append {b : UInt8} {before : List UInt8} (absent : b ∉ before)
    (rest : List UInt8) :
    (before ++ rest).takeWhile (· != b) = before ++ rest.takeWhile (· != b) := by
  apply List.takeWhile_append_of_pos
  rintro other member
  exact bne_iff_ne.mpr fun found => absent (found ▸ member)

theorem getStringAt_apply (h : Framed c) (offset : Nat) :
    getStringAt offset c =
      if offset ≤ c.length then
        if 0 ∈ c.window.drop offset then
          ⟨.value ((c.window.drop offset).takeWhile (· != 0)), c, []⟩
        else Action.refuse (.malformed offset .unterminatedString) c
      else Action.refuse (.outOfRange offset 0 c.length) c := by
  rw [getStringAt, Action.get_bind_apply, Action.bind_of_ite _ (h.readAt_apply offset _)]
  by_cases inside : offset ≤ c.length
  · have whole : (c.window.drop offset).take (c.length - offset) = c.window.drop offset := by
      rw [← h.length_window, ← List.length_drop, List.take_length]
    have ends : ((c.window.drop offset).takeWhile (· != 0)).length < (c.window.drop offset).length ↔
        0 ∈ c.window.drop offset := by
      rw [length_takeWhile_lt_iff]
      simp
    rw [if_pos (by omega), if_pos inside]
    simp only [whole, ends]
    split <;> rfl
  · have asked : c.length - offset = 0 := by omega
    rw [if_neg (by omega), if_neg inside, asked]

theorem string_le (h : Framed c) (ends : 0 ∈ c.window.drop c.position) :
    c.position + (((c.window.drop c.position).takeWhile (· != 0)).length + 1) ≤ c.length := by
  have shorter : ((c.window.drop c.position).takeWhile (· != 0)).length <
      (c.window.drop c.position).length := by
    rw [length_takeWhile_lt_iff]
    exact ⟨0, ends, rfl⟩
  rw [List.length_drop, h.length_window] at shorter
  omega

theorem getString_apply (h : Framed c) :
    getString c =
      if 0 ∈ c.window.drop c.position then
        ⟨.value ((c.window.drop c.position).takeWhile (· != 0)), { c with position :=
          c.position + (((c.window.drop c.position).takeWhile (· != 0)).length + 1) }, []⟩
      else Action.refuse (.malformed c.position .unterminatedString) c := by
  have found := h.getStringAt_apply c.position
  rw [if_pos h.position_le] at found
  rw [getString, Action.get_bind_apply, Action.bind_of_ite _ found]
  split
  · rw [h.advance_bind_apply (h.string_le ‹_›)]
    rfl
  · rfl

theorem firstLine_size_le (text : List UInt8) : (firstLine text).2 ≤ text.length := by
  simp only [firstLine]
  split
  · assumption
  · exact Nat.le_refl _

theorem line_le (h : Framed c) :
    c.position + (firstLine (c.window.drop c.position)).2 ≤ c.length := by
  have := h.position_le
  have taken := firstLine_size_le (c.window.drop c.position)
  rw [List.length_drop, h.length_window] at taken
  omega

theorem getLine_apply (h : Framed c) :
    getLine c =
      if c.position < c.length then
        ⟨.value (firstLine (c.window.drop c.position)).1, { c with position :=
          c.position + (firstLine (c.window.drop c.position)).2 }, []⟩
      else Action.refuse (.outOfRange c.position 1 c.length) c := by
  have le := h.position_le
  simp only [getLine, Action.get_bind_apply, atEnd, beq_iff_eq]
  by_cases done : c.position = c.length
  · rw [if_pos done, if_neg (by omega)]
  · rw [if_neg done, if_pos (by omega), h.rest_eq, Action.ofExcept_ok, Action.pure_bind_apply,
      h.advance_bind_apply h.line_le]
    rfl

end Framed

/-! Views. -/

/-- The range that has to be inside of the window for a view to be made; a clamped one asks for
nothing. -/
def Range.request : Range → Nat × Nat
  | .clamped _ _ | .clampedTail _ => (0, 0)
  | .exact offset size => (offset, size)
  | .exactTail offset => (offset, 0)

def Range.bounds (c : ByteCursor) : Range → Nat × Nat
  | .clamped offset size => c.clamp offset size
  | .clampedTail offset => c.clamp offset c.length
  | .exact offset size => (offset, size)
  | .exactTail offset => (offset, c.length - offset)

theorem Framed.resolve_apply (h : Framed c) (range : Range) :
    resolve range c =
      if range.request.1 + range.request.2 ≤ c.length then ⟨.value (range.bounds c), c, []⟩
      else Action.refuse (.outOfRange range.request.1 range.request.2 c.length) c := by
  cases range with
  | clamped offset size => simp [resolve, Range.request, Range.bounds]
  | clampedTail offset => simp [resolve, Range.request, Range.bounds]
  | exact offset size =>
    rw [resolve, Action.get_bind_apply, Action.checkRange_bind_apply h.length_lt]
    rfl
  | exactTail offset =>
    rw [resolve, Action.get_bind_apply, Action.checkRange_bind_apply h.length_lt]
    change _ = if offset + 0 ≤ c.length then _ else _
    split
    · rw [Size.difference_of_le (by omega)]
      rfl
    · rfl

theorem Range.bounds_le (c : ByteCursor) {range : Range}
    (inside : range.request.1 + range.request.2 ≤ c.length) :
    (range.bounds c).1 + (range.bounds c).2 ≤ c.length := by
  cases range <;> simp only [Range.request, Range.bounds, clamp] at inside ⊢ <;> omega

namespace Framed

theorem view_apply (h : Framed c) (range : Range) :
    view range c =
      if range.request.1 + range.request.2 ≤ c.length then
        ⟨.value ⟨c.data, c.start + (range.bounds c).1, (range.bounds c).2, 0⟩, c, []⟩
      else Action.refuse (.outOfRange range.request.1 range.request.2 c.length) c := by
  rw [view, Action.bind_of_ite _ (h.resolve_apply range)]
  split
  · rename_i inside
    have word : c.start + (range.bounds c).1 < Size.limit := by
      have := range.bounds_le c inside
      have := h.window_le
      have := h.data_word
      omega
    simp only [Action.get_bind_apply, Size.sum_of_lt word, Action.ofExcept_ok,
      Action.pure_bind_apply, Action.pure_apply]
  · rfl

/-- A view of bits leaves the cursor as it is, also where the bits are too many to be counted. -/
theorem state_bitView (h : Framed c) (range : Range) : (bitView range c).state = c := by
  rw [bitView, Action.bind_of_ite _ (h.resolve_apply range)]
  split
  · simp only [Action.get_bind_apply]
    cases Size.sum c.start (range.bounds c).1 with
    | error f => rfl
    | ok start => cases bitCount (range.bounds c).2 <;> rfl
  · rfl

theorem viewed (h : Framed c) {offset size : Nat} (inside : offset + size ≤ c.length) :
    Framed ⟨c.data, c.start + offset, size, 0⟩ := by
  have := h.window_le
  exact ⟨h.data_word, show c.start + offset + size ≤ c.data.length by omega, Nat.zero_le _⟩

theorem of_view (h : Framed c) {range : Range} {v : ByteCursor}
    (made : (view range c).outcome = .value v) : Framed v ∧ v.data = c.data := by
  rw [h.view_apply] at made
  split at made
  · rename_i inside
    cases made
    exact ⟨h.viewed (range.bounds_le c inside), rfl⟩
  · cases made

end Framed

namespace Valid

theorem bitView_apply (h : Valid c) (range : Range) :
    bitView range c =
      if range.request.1 + range.request.2 ≤ c.length then
        ⟨.value ⟨c.data, c.start + (range.bounds c).1, (range.bounds c).2 * 8, 0⟩, c, []⟩
      else Action.refuse (.outOfRange range.request.1 range.request.2 c.length) c := by
  rw [bitView, Action.bind_of_ite _ (h.resolve_apply range)]
  split
  · rename_i inside
    have word : c.start + (range.bounds c).1 < Size.limit ∧
        (range.bounds c).2 * 8 < Size.limit := by
      have := range.bounds_le c inside
      have := h.window_le
      have := h.data_lt
      simp only [Size.limit]
      omega
    simp only [Action.get_bind_apply, Size.sum_of_lt word.1, bitCount, Size.product_of_lt word.2,
      Action.ofExcept_ok, Action.pure_bind_apply, Action.pure_apply]
  · rfl

theorem viewed (h : Valid c) {offset size : Nat} (inside : offset + size ≤ c.length) :
    Valid ⟨c.data, c.start + offset, size, 0⟩ :=
  ⟨h.toFramed.viewed inside, h.data_lt⟩

end Valid

end BinaryStream.ByteCursor
