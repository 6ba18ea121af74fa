import BinaryStream.Proofs.BitCursor.Window
import BinaryStream.Proofs.ByteCursor.Views

/-!
The bit cursors there are: over a whole block, at a bit of one, or as a view from a byte cursor, and
what commands make of them. Blocks may be of any size, since a bit count that is no word ends in a
fault and no cursor; every cursor that is made is framed and stays so.
-/
namespace BinaryStream.BitCursor

/-- The bit cursors that opening, viewing and commands lead to, over blocks of any size. -/
inductive Reachable : BitCursor → Prop where
  | whole {data : List UInt8} {c : BitCursor} (made : ofBytes data = .ok c) : Reachable c
  | opened {data : List UInt8} {position : Nat} {c : BitCursor}
      (made : (openAt data position ()).outcome = .value c) : Reachable c
  | viewed {b : ByteCursor} {range : ByteCursor.Range} {c : BitCursor}
      (before : ByteCursor.Framed b)
      (made : (ByteCursor.bitView range b).outcome = .value c) : Reachable c
  | ran {c : BitCursor} (before : Reachable c) (command : Command) :
      Reachable (command.run c).state

variable {c : BitCursor}

theorem Framed.of_ofBytes {data : List UInt8} (made : ofBytes data = .ok c) : Framed c := by
  cases bits : bitCount data.length with
  | error f => simp [ofBytes, bits, bind, Except.bind] at made
  | ok count =>
    obtain ⟨word, rfl⟩ := Size.product_eq_ok_iff.mp bits
    simp only [ofBytes, bits, bind, Except.bind, Except.ok.injEq] at made
    subst made
    exact ⟨word, Nat.zero_le _, Nat.le_of_eq (Nat.mul_comm _ _), Nat.zero_le _⟩

theorem Framed.of_openAt {data : List UInt8} {position : Nat}
    (made : (openAt data position ()).outcome = .value c) : Framed c := by
  cases whole : ofBytes data with
  | error f =>
    rw [openAt, whole] at made
    cases made
  | ok s =>
    have framed := Framed.of_ofBytes whole
    rw [openAt, whole, Action.ofExcept_ok, Action.pure_bind_apply,
      Action.checkRange_bind_apply framed.length_lt] at made
    split at made
    · rename_i inside
      cases made
      exact framed.moved inside
    · cases made

theorem Framed.of_bitView {b : ByteCursor} {range : ByteCursor.Range} (h : ByteCursor.Framed b)
    (made : (ByteCursor.bitView range b).outcome = .value c) : Framed c := by
  rw [ByteCursor.bitView, Action.bind_of_ite _ (h.resolve_apply range)] at made
  split at made
  · rename_i inside
    have within := ByteCursor.Range.bounds_le b inside
    have window := h.window_le
    have start : b.start + (range.bounds b).1 < Size.limit := by
      have := h.data_word
      omega
    simp only [Action.get_bind_apply, Size.sum_of_lt start, Action.ofExcept_ok,
      Action.pure_bind_apply] at made
    cases bits : bitCount (range.bounds b).2 with
    | error f =>
      rw [bits] at made
      cases made
    | ok count =>
      obtain ⟨word, rfl⟩ := Size.product_eq_ok_iff.mp bits
      rw [bits] at made
      cases made
      refine ⟨word, ?_, ?_, Nat.zero_le _⟩
      · change b.start + (range.bounds b).1 ≤ b.data.length
        omega
      · change (range.bounds b).2 * 8 ≤ 8 * (b.data.length - (b.start + (range.bounds b).1))
        omega
  · cases made

theorem Command.run_framed (h : Framed c) (command : Command) : Framed (command.run c).state := by
  have read : ∀ width, Framed (BitCursor.read width c).state := by
    intro width
    rw [h.read_apply]
    split
    · exact h
    · split
      · exact h.moved ‹_›
      · exact h
  cases command with
  | seek position =>
    rw [Command.run, Action.bind_of_ite _ (h.seek_apply position)]
    split
    · exact h.moved ‹_›
    · exact h
  | skip bits =>
    rw [Command.run, Action.bind_of_ite _ (h.skip_apply bits)]
    split
    · exact h.moved ‹_›
    · exact h
  | truncate length =>
    rw [Command.run, Action.bind_of_ite _ (truncate_apply length)]
    split
    · exact h.truncated ‹_›
    · exact h
  | readAt position width =>
    rw [Command.run, Action.bind_pure_apply, h.readAt_apply]
    split
    · exact h
    · split <;> exact h
  | peek width =>
    rw [Command.run, Action.bind_pure_apply, h.peek_apply]
    split
    · exact h
    · split <;> exact h
  | read width =>
    rw [Command.run, Action.bind_pure_apply]
    exact read width
  | readBit =>
    rw [Command.run, Action.bind_pure_apply, BitCursor.readBit, Action.bind_pure_apply]
    exact read 1
  | tell => exact h

theorem Reachable.framed (reached : Reachable c) : Framed c := by
  induction reached with
  | whole made => exact .of_ofBytes made
  | opened made => exact .of_openAt made
  | viewed before made => exact .of_bitView before made
  | ran _ command framed => exact command.run_framed framed

end BinaryStream.BitCursor
