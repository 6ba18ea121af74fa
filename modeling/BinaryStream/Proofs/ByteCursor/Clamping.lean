import BinaryStream.Proofs.ByteCursor.Safety

/-!
Tolerant operations. A range is cut down to what of it lies in the window, whatever its offset and
its size, and a tolerant operation is the strict one on that. Reads one after the other leave
nothing out and read nothing twice; reading on until nothing comes reads all of the rest.
-/
namespace BinaryStream.ByteCursor

variable {c : ByteCursor}

/-- A request that is always answered: as the strict one for the range that it is cut down to, and
as the strict one for the range that was asked for where that one is answered. -/
structure Tolerates {α : Type} (c : ByteCursor)
    (tolerant clamped asked : Action ByteCursor AccessError α) : Prop where
  answered : ∃ a, (tolerant c).outcome = .value a
  clamped_eq : tolerant c = clamped c
  asked_eq : ∀ a, (asked c).outcome = .value a → tolerant c = asked c

theorem Tolerates.of {α : Type} {tolerant clamped asked : Action ByteCursor AccessError α} {a : α}
    {t : ByteCursor} {r : Reply ByteCursor AccessError α} {e : AccessError} {p : Prop} [Decidable p]
    (always : tolerant c = ⟨.value a, t, []⟩) (cut : clamped c = ⟨.value a, t, []⟩)
    (strict : asked c = if p then r else Action.refuse e c) (inside : p → clamped = asked) :
    Tolerates c tolerant clamped asked := by
  refine ⟨⟨a, by rw [always]⟩, always.trans cut.symm, ?_⟩
  intro b found
  by_cases holds : p
  · rw [always, ← cut, inside holds]
  · rw [strict, if_neg holds] at found
    cases found

/-- A range that lies in the window is not cut. -/
theorem clamp_of_inside {offset size : Nat} (inside : offset + size ≤ c.length) :
    c.clamp offset size = (offset, size) := by
  have first : min offset c.length = offset := by omega
  have count : min size (c.length - offset) = size := by omega
  simp only [clamp, first, count]

/-- Whatever is made of the bounds of a range, a clamped range and an exact one give the same. -/
theorem Tolerates.of_bounds {α : Type} {make : Range → Action ByteCursor AccessError α}
    (result : Nat × Nat → α)
    (made : ∀ range, make range c =
      if range.request.1 + range.request.2 ≤ c.length then ⟨.value (result (range.bounds c)), c, []⟩
      else Action.refuse (.outOfRange range.request.1 range.request.2 c.length) c)
    (offset size : Nat) :
    Tolerates c (make (.clamped offset size))
        (make (.exact (c.clamp offset size).1 (c.clamp offset size).2))
        (make (.exact offset size)) ∧
      Tolerates c (make (.clampedTail offset)) (make (.exactTail (min offset c.length)))
        (make (.exactTail offset)) := by
  have always (range : Range) (none : range.request = (0, 0)) :
      make range c = ⟨.value (result (range.bounds c)), c, []⟩ := by
    simp [made, none]
  constructor
  · refine .of (always _ rfl) ?_ (made _) ?_
    · rw [made]
      exact if_pos (c.clamp_le offset size)
    · intro (inside : offset + size ≤ c.length)
      rw [clamp_of_inside inside]
  · refine .of (always _ rfl) ?_ (made _) ?_
    · have tail : min c.length (c.length - min offset c.length) =
          c.length - min offset c.length := by
        omega
      rw [made, Range.bounds, Range.bounds, clamp, tail]
      exact if_pos (Nat.min_le_right _ _)
    · intro (inside : offset ≤ c.length)
      rw [Nat.min_eq_left inside]

namespace Framed

/-- A strict read that is answered gives as many bytes as were asked for. -/
theorem length_of_strict (h : Framed c) {offset size : Nat} {bytes : List UInt8}
    {r : Reply ByteCursor AccessError (List UInt8)} {e : AccessError} {s t : ByteCursor}
    (strict : r = if offset + size ≤ c.length then
      ⟨.value ((c.window.drop offset).take size), t, []⟩ else Action.refuse e s)
    (found : r.outcome = .value bytes) : bytes.length = size := by
  rw [strict] at found
  split at found
  · cases found
    exact h.length_part ‹_›
  · cases found

/-! Reads at an offset. -/

theorem readAt_clamp (h : Framed c) (offset size : Nat) :
    readAt (c.clamp offset size).1 (c.clamp offset size).2 c =
      ⟨.value ((c.window.drop offset).take size), c, []⟩ := by
  rw [h.readAt_apply, if_pos (c.clamp_le offset size), h.window_clamp]

theorem readUpToAt_tolerates (h : Framed c) (offset size : Nat) :
    Tolerates c (readUpToAt offset size) (readAt (c.clamp offset size).1 (c.clamp offset size).2)
      (readAt offset size) := by
  refine .of (h.readUpToAt_apply offset size) (h.readAt_clamp offset size)
    (h.readAt_apply offset size) ?_
  intro inside
  rw [clamp_of_inside inside]

theorem fillUpToAt_tolerates (h : Framed c) (offset : Nat) (buffer : List UInt8) :
    let count := (c.clamp offset buffer.length).2
    Tolerates c (fillUpToAt offset buffer)
      (do let bytes ← readAt (c.clamp offset buffer.length).1 count
          pure (count, bytes ++ buffer.drop count))
      (do let filled ← fillAt offset buffer
          pure (buffer.length, filled)) := by
  intro count
  have same : min buffer.length (c.length - offset) = count := by
    simp only [count, clamp]
    omega
  refine .of (h.fillUpToAt_apply offset buffer) ?_
    (Action.bind_of_ite _ (h.readAt_apply offset buffer.length)) ?_
  · rw [Action.bind_of_value (h.readAt_clamp offset buffer.length), same]
    rfl
  · intro inside
    simp [count, clamp_of_inside inside, fillAt]

/-! Reads from the position on. -/

theorem take_remaining (h : Framed c) (size : Nat) :
    (c.window.drop c.position).take (min size c.remaining) =
      (c.window.drop c.position).take size := by
  rw [remaining, ← h.length_window, ← List.length_drop, ← List.take_eq_take_min]

theorem drop_remaining (h : Framed c) (size : Nat) :
    c.window.drop (c.position + min size c.remaining) = (c.window.drop c.position).drop size := by
  have here := h.remaining_add_position
  rw [List.drop_drop]
  by_cases enough : size ≤ c.remaining
  · rw [Nat.min_eq_left enough]
  · have len := h.length_window
    rw [List.drop_of_length_le (by omega), List.drop_of_length_le (by omega)]

theorem read_remaining (h : Framed c) (size : Nat) :
    read (min size c.remaining) c =
      ⟨.value ((c.window.drop c.position).take size),
        { c with position := c.position + min size c.remaining }, []⟩ := by
  have here := h.remaining_add_position
  rw [h.read_apply, if_pos (by omega), h.take_remaining]

theorem readUpTo_tolerates (h : Framed c) (size : Nat) :
    Tolerates c (readUpTo size) (read (min size c.remaining)) (read size) := by
  refine .of (h.readUpTo_apply size) (h.read_remaining size) (h.read_apply size) ?_
  intro inside
  have here := h.remaining_add_position
  rw [Nat.min_eq_left (by omega)]

theorem fillUpTo_tolerates (h : Framed c) (buffer : List UInt8) :
    let count := min buffer.length c.remaining
    Tolerates c (fillUpTo buffer)
      (do let bytes ← read count
          pure (count, bytes ++ buffer.drop count))
      (do let filled ← fill buffer
          pure (buffer.length, filled)) := by
  intro count
  refine .of (h.fillUpTo_apply buffer) ?_ (Action.bind_of_ite _ (h.read_apply buffer.length)) ?_
  · rw [Action.bind_of_value (h.read_remaining buffer.length)]
    rfl
  · intro inside
    have here := h.remaining_add_position
    have whole : count = buffer.length := Nat.min_eq_left (by omega)
    simp [whole, fill]

/-! Reads one after the other. -/

theorem readEach_apply (h : Framed c) (sizes : List Nat) :
    ∃ pieces, Action.collect readUpTo sizes c =
        ⟨.value pieces, { c with position := c.position + min sizes.sum c.remaining }, []⟩ ∧
      pieces.flatten = (c.window.drop c.position).take sizes.sum := by
  have here := h.remaining_add_position
  induction sizes generalizing c with
  | nil => exact ⟨[], by simp [Action.collect], rfl⟩
  | cons size sizes ih =>
    -- The other reads start where the first one stopped, which may be the end.
    have moved := h.moved (show c.position + min size c.remaining ≤ c.length by omega)
    obtain ⟨pieces, others, all⟩ := ih moved moved.remaining_add_position
    refine ⟨(c.window.drop c.position).take size :: pieces, ?_, ?_⟩
    · have behind : c.position + min size c.remaining +
          min sizes.sum (c.length - (c.position + min size c.remaining)) =
            c.position + min (size + sizes.sum) c.remaining := by
        omega
      rw [Action.collect_of_value readUpTo (h.readUpTo_apply size), others]
      simp only [remaining, List.sum_cons] at behind ⊢
      rw [behind]
      rfl
    · change _ = (c.window.drop (c.position + min size c.remaining)).take sizes.sum at all
      rw [List.flatten_cons, all, h.drop_remaining, List.sum_cons, List.take_add]

theorem exists_repeats_readUpTo (h : Framed c) {size : Nat} (positive : 0 < size) :
    ∃ pieces last, Action.Repeats (readUpTo size) (· ≠ []) c pieces last := by
  have shrinks (s : ByteCursor) (piece : List UInt8) (held : Framed s)
      (answered : (readUpTo size s).outcome = .value piece) (filled : piece ≠ []) :
      Framed (readUpTo size s).state ∧ (readUpTo size s).state.remaining < s.remaining := by
    have here := held.remaining_add_position
    rw [held.readUpTo_apply] at answered ⊢
    cases answered
    have left : 0 < s.remaining := by
      by_contra none
      apply filled
      rw [← held.take_remaining, Nat.eq_zero_of_not_pos none, Nat.min_zero, List.take_zero]
    refine ⟨held.moved (by omega), ?_⟩
    simp only [remaining] at left ⊢
    omega
  obtain ⟨pieces, last, run, -⟩ := Action.exists_repeats shrinks h
  exact ⟨pieces, last, run⟩

theorem eq_of_repeats_readUpTo (h : Framed c) {size : Nat} (positive : 0 < size)
    {pieces : List (List UInt8)} {last : Reply ByteCursor AccessError (List UInt8)}
    (run : Action.Repeats (readUpTo size) (· ≠ []) c pieces last) :
    pieces.flatten = c.window.drop c.position ∧
      last = ⟨.value [], { c with position := c.length }, []⟩ := by
  induction run with
  | @ended c last =>
    have here := h.remaining_add_position
    rw [h.readUpTo_apply] at last ⊢
    have none : (c.window.drop c.position).take size = [] := by
      by_contra filled
      exact last _ rfl filled
    -- Nothing came although some was asked for, so nothing is ahead.
    have behind : c.window.drop c.position = [] := by
      rcases List.take_eq_nil_iff.mp none with zero | empty
      · omega
      · exact empty
    have done : c.position + min size c.remaining = c.length := by
      have past := List.drop_eq_nil_iff.mp behind
      rw [h.length_window] at past
      omega
    simp [behind, done]
  | @again c piece pieces last answered filled rest ih =>
    have here := h.remaining_add_position
    rw [h.readUpTo_apply] at answered ih
    cases answered
    obtain ⟨others, ends⟩ := ih (h.moved (by omega))
    refine ⟨?_, ends⟩
    change _ = c.window.drop (c.position + min size c.remaining) at others
    rw [List.flatten_cons, others, h.drop_remaining, List.take_append_drop]

end Framed

/-- A tolerant operation never fails, and is the strict one for what of its range is inside of the
window: for reads and views at an offset, for buffers, of which the rest stays as it is, and for
reads from the position on. Where the strict one for the range itself is answered, they agree. Reads
of any sizes, one after the other, give what is ahead up to their total, and move past it. Reads of
one size until nothing comes give all that is ahead, and end. -/
theorem tolerant_clamps (reached : Reachable c) (offset size : Nat) :
    let first := min offset c.length
    let count := min size (c.length - first)
    let next := min size c.remaining
    (Tolerates c (readUpToAt offset size) (readAt first count) (readAt offset size) ∧
      Tolerates c (view (.clamped offset size)) (view (.exact first count))
        (view (.exact offset size)) ∧
      Tolerates c (bitView (.clamped offset size)) (bitView (.exact first count))
        (bitView (.exact offset size)) ∧
      Tolerates c (view (.clampedTail offset)) (view (.exactTail first))
        (view (.exactTail offset)) ∧
      Tolerates c (bitView (.clampedTail offset)) (bitView (.exactTail first))
        (bitView (.exactTail offset)) ∧
      Tolerates c (readUpTo size) (read next) (read size)) ∧
    (∀ buffer : List UInt8, buffer.length = size →
      Tolerates c (fillUpToAt offset buffer)
        (do let bytes ← readAt first count
            pure (count, bytes ++ buffer.drop count))
        (do let filled ← fillAt offset buffer
            pure (size, filled)) ∧
      Tolerates c (fillUpTo buffer)
        (do let bytes ← read next
            pure (next, bytes ++ buffer.drop next))
        (do let filled ← fill buffer
            pure (size, filled))) ∧
    ((∀ bytes, (readAt first count c).outcome = .value bytes → bytes.length = count) ∧
      ∀ bytes, (read next c).outcome = .value bytes → bytes.length = next) ∧
    (∀ sizes : List Nat, let total := min sizes.sum c.remaining
      ∃ pieces, Action.collect readUpTo sizes c =
          ⟨.value pieces, { c with position := c.position + total }, []⟩ ∧
        pieces.flatten = (c.window.drop c.position).take total) ∧
    (0 < size →
      (∃ pieces last, Action.Repeats (readUpTo size) (· ≠ []) c pieces last) ∧
      ∀ pieces last, Action.Repeats (readUpTo size) (· ≠ []) c pieces last →
        pieces.flatten = c.window.drop c.position ∧
          last = ⟨.value [], { c with position := c.length }, []⟩) := by
  intro first count next
  have valid := reached.valid
  have h := valid.toFramed
  obtain ⟨views, viewTails⟩ := Tolerates.of_bounds
    (fun b => (⟨c.data, c.start + b.1, b.2, 0⟩ : ByteCursor)) h.view_apply offset size
  obtain ⟨bits, bitTails⟩ := Tolerates.of_bounds
    (fun b => (⟨c.data, c.start + b.1, b.2 * 8, 0⟩ : BitCursor)) valid.bitView_apply offset size
  refine ⟨⟨h.readUpToAt_tolerates offset size, views, bits, viewTails, bitTails,
    h.readUpTo_tolerates size⟩, ?_, ?_, ?_, ?_⟩
  · rintro buffer rfl
    exact ⟨h.fillUpToAt_tolerates offset buffer, h.fillUpTo_tolerates buffer⟩
  · exact ⟨fun _ => h.length_of_strict (h.readAt_apply first count),
      fun _ => h.length_of_strict (h.read_apply next)⟩
  · intro sizes total
    obtain ⟨pieces, answered, all⟩ := h.readEach_apply sizes
    exact ⟨pieces, answered, all.trans (h.take_remaining sizes.sum).symm⟩
  · intro positive
    exact ⟨h.exists_repeats_readUpTo positive, fun _ _ => h.eq_of_repeats_readUpTo positive⟩

/-- Far past the end of a part of a block, for the largest size, nothing is left; two bytes are
ahead, of which a longer buffer takes both. -/
theorem tolerant_clamps_past_end :
    let c : ByteCursor := ⟨[1, 2, 3, 4, 5], 1, 3, 1⟩
    Reachable c ∧
      readUpToAt 7 Size.top c = ⟨.value [], c, []⟩ ∧
      view (.clamped 2 Size.top) c = ⟨.value ⟨[1, 2, 3, 4, 5], 3, 1, 0⟩, c, []⟩ ∧
      (fillUpTo [8, 8, 8] c).outcome = .value (2, [3, 4, 8]) ∧
      ∀ pieces last, Action.Repeats (readUpTo Size.top) (· ≠ []) c pieces last →
        pieces.flatten = [3, 4] := by
  intro c
  have whole : Reachable (ofBytes [1, 2, 3, 4, 5]) := .whole (by decide)
  have made : (view (.exact 1 3) (ofBytes [1, 2, 3, 4, 5])).outcome =
      .value ⟨[1, 2, 3, 4, 5], 1, 3, 0⟩ := rfl
  have reached : Reachable c := (Reachable.viewed whole made).ran (.seek 1)
  obtain ⟨⟨past, -⟩, -⟩ := tolerant_clamps reached 7 Size.top
  obtain ⟨⟨-, views, -⟩, -, -, -, drain⟩ := tolerant_clamps reached 2 Size.top
  obtain ⟨-, buffers, -⟩ := tolerant_clamps reached 0 3
  obtain ⟨-, fills⟩ := buffers [8, 8, 8] rfl
  refine ⟨reached, past.clamped_eq.trans (by decide), views.clamped_eq.trans (by decide), ?_, ?_⟩
  · rw [fills.clamped_eq]
    decide
  · intro pieces last run
    exact ((drain (by decide)).2 pieces last run).1

end BinaryStream.ByteCursor
