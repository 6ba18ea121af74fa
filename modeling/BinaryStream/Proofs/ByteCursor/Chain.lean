import BinaryStream.Proofs.BitCursor.Window
import BinaryStream.Proofs.ByteCursor.Safety

/-!
Chains of views, each made from the one before. What a chain shows is the list slice that its ranges
name, one after the other; no link of it shows more than the cursors above, and a view of bits shows
the bits of the view of bytes in its place.
-/
namespace BinaryStream.ByteCursor

variable {c v : ByteCursor}

/-! One view. -/

/-- What a range shows of a list of bytes. -/
def Range.slice : Range → List UInt8 → List UInt8
  | .clamped offset size, bytes | .exact offset size, bytes => (bytes.drop offset).take size
  | .clampedTail offset, bytes | .exactTail offset, bytes => bytes.drop offset

def Range.Fits (c : ByteCursor) (range : Range) : Prop :=
  range.request.1 + range.request.2 ≤ c.length

instance decidableFits (c : ByteCursor) (range : Range) : Decidable (range.Fits c) :=
  inferInstanceAs (Decidable (_ ≤ _))

/-- The cursor that a range makes where it fits. -/
def Range.cursor (c : ByteCursor) (range : Range) : ByteCursor :=
  ⟨c.data, c.start + (range.bounds c).1, (range.bounds c).2, 0⟩

/-- The window of `v` lies in that of `c`, over the same block. -/
structure Within (c v : ByteCursor) : Prop where
  data_eq : v.data = c.data
  start_le : c.start ≤ v.start
  stop_le : v.start + v.length ≤ c.start + c.length

theorem Within.refl (c : ByteCursor) : Within c c := ⟨rfl, Nat.le_refl _, Nat.le_refl _⟩

theorem Within.trans {w : ByteCursor} (upper : Within c v) (lower : Within v w) : Within c w :=
  ⟨lower.data_eq.trans upper.data_eq, Nat.le_trans upper.start_le lower.start_le,
    Nat.le_trans lower.stop_le upper.stop_le⟩

theorem Narrows.within (narrows : Narrows c v) : Within c v :=
  ⟨narrows.data_eq, Nat.le_of_eq narrows.start_eq.symm,
    Nat.add_le_add (Nat.le_of_eq narrows.start_eq) narrows.length_le⟩

theorem window_part {offset size : Nat} (inside : offset + size ≤ c.length) :
    window ⟨c.data, c.start + offset, size, 0⟩ = (c.window.drop offset).take size := by
  have room : min size (c.length - offset) = size := by omega
  simp only [window, List.drop_take, List.drop_drop, List.take_take, room]

namespace Valid

theorem slice_window (h : Valid c) {range : Range} (fits : range.Fits c) :
    (c.window.drop (range.bounds c).1).take (range.bounds c).2 = range.slice c.window := by
  have tail (offset : Nat) {size : Nat} (enough : c.length ≤ offset + size) :
      (c.window.drop offset).take size = c.window.drop offset := by
    apply List.take_of_length_le
    rw [List.length_drop, h.length_window]
    omega
  cases range with
  | clamped offset size => exact h.window_clamp offset size
  | exact offset size => rfl
  | clampedTail offset =>
    exact (h.window_clamp offset c.length).trans (tail offset (Nat.le_add_left _ _))
  | exactTail offset => exact tail offset (show c.length ≤ offset + (c.length - offset) by omega)

theorem view_cursor (h : Valid c) (range : Range) :
    view range c =
      if range.Fits c then ⟨.value (range.cursor c), c, []⟩
      else Action.refuse (.outOfRange range.request.1 range.request.2 c.length) c :=
  h.view_apply range

theorem cursor_valid (h : Valid c) {range : Range} (fits : range.Fits c) :
    Valid (range.cursor c) :=
  h.viewed (range.bounds_le c fits)

theorem cursor_within {range : Range} (fits : range.Fits c) : Within c (range.cursor c) := by
  have inside := range.bounds_le c fits
  refine ⟨rfl, Nat.le_add_right _ _, ?_⟩
  simp only [Range.cursor]
  omega

theorem window_cursor (h : Valid c) {range : Range} (fits : range.Fits c) :
    (range.cursor c).window = range.slice c.window :=
  (window_part (range.bounds_le c fits)).trans (h.slice_window fits)

/-- A view of bits shows the bits of the view of bytes in its place. -/
theorem visible_bitCursor (h : Valid c) {range : Range} (fits : range.Fits c) :
    BitCursor.visible ⟨c.data, c.start + (range.bounds c).1, (range.bounds c).2 * 8, 0⟩ =
      Bytes.bits (range.slice c.window) := by
  rw [← h.window_cursor fits, window, Bytes.bits_take, Bytes.bits_drop, Nat.mul_comm 8]
  rfl

end Valid

/-! Chains. -/

/-- A step of a chain: the cursor gives way to a view of it, or obeys a command. -/
inductive Link where
  | view (range : Range)
  | obey (command : Command)

namespace Link

/-- Takes the step; one that is refused leaves the cursor as it was. -/
def run : Link → Action ByteCursor AccessError Unit
  | .view range => do
    let v ← ByteCursor.view range
    Action.modify fun _ => v
  | .obey command => do
    let _ ← command.run
    pure ()

/-- What is left of the bytes that were visible before the step. -/
def slice : Link → List UInt8 → List UInt8
  | .view range, bytes => range.slice bytes
  | .obey (.truncate length), bytes => bytes.take length
  | .obey _, bytes => bytes

/-- Steps that change what is visible; the others move or read. -/
def Shaping : Link → Prop
  | .view _ | .obey (.truncate _) => True
  | .obey _ => False

theorem run_view (h : Valid c) (range : Range) :
    run (.view range) c =
      if range.Fits c then ⟨.value (), range.cursor c, []⟩
      else Action.refuse (.outOfRange range.request.1 range.request.2 c.length) c := by
  rw [run, Action.bind_of_ite _ (h.view_cursor range)]
  rfl

theorem run_obey (command : Command) : (run (.obey command) c).state = (command.run c).state := by
  rw [run, Action.bind_pure_apply]

theorem run_valid_within (h : Valid c) (link : Link) :
    Valid (link.run c).state ∧ Within c (link.run c).state := by
  cases link with
  | view range =>
    rw [run_view h]
    split
    · exact ⟨h.cursor_valid ‹_›, Valid.cursor_within ‹_›⟩
    · exact ⟨h, .refl c⟩
  | obey command =>
    rw [run_obey]
    exact ⟨command.run_valid h, (command.run_narrows h).within⟩

theorem slice_of_not_truncate {command : Command} (other : ∀ length, command ≠ .truncate length)
    (bytes : List UInt8) : slice (.obey command) bytes = bytes := by
  cases command with
  | truncate length => exact absurd rfl (other length)
  | _ => rfl

theorem window_run (h : Valid c) {link : Link}
    (answered : link.Shaping → (link.run c).outcome = .value ()) :
    (link.run c).state.window = link.slice c.window := by
  cases link with
  | view range =>
    have made := answered trivial
    rw [run_view h] at made ⊢
    split at made
    · rename_i fits
      rw [if_pos fits]
      exact h.window_cursor fits
    · cases made
  | obey command =>
    rw [run_obey]
    by_cases truncates : ∃ length, command = .truncate length
    · obtain ⟨length, rfl⟩ := truncates
      have made := answered trivial
      rw [run, Action.bind_pure_apply, Command.run_truncate] at made
      rw [Command.run_truncate]
      split at made
      · rename_i inside
        rw [if_pos inside]
        exact window_truncated inside _
      · cases made
    · have other : ∀ length, command ≠ .truncate length :=
        fun length same => truncates ⟨length, same⟩
      have keeps := command.run_keeps h other
      rw [slice_of_not_truncate other, window, keeps.data_eq, keeps.start_eq, keeps.length_eq,
        window]

/-- Every step that changes what is visible is answered where the chain comes to it. -/
def Answered : List Link → ByteCursor → Prop
  | [], _ => True
  | link :: chain, c =>
    (link.Shaping → (link.run c).outcome = .value ()) ∧ Answered chain (link.run c).state

theorem execute_valid_within (h : Valid c) (chain : List Link) :
    Valid (Action.execute run chain c) ∧ Within c (Action.execute run chain c) := by
  apply Action.execute_invariant (fun s => Valid s ∧ Within c s)
  · rintro link s ⟨valid, within⟩
    have next := link.run_valid_within valid
    exact ⟨next.1, within.trans next.2⟩
  · exact ⟨h, .refl c⟩

theorem window_execute (h : Valid c) {chain : List Link} (answered : Answered chain c) :
    (Action.execute run chain c).window =
      chain.foldl (fun bytes link => link.slice bytes) c.window := by
  induction chain generalizing c with
  | nil => rfl
  | cons link chain ih =>
    obtain ⟨first, others⟩ := answered
    rw [Action.execute, ih (link.run_valid_within h).1 others, window_run h first, List.foldl_cons]

theorem execute_within_of_append (h : Valid c) (before after : List Link) :
    Within (Action.execute run before c) (Action.execute run (before ++ after) c) := by
  rw [Action.execute_append]
  exact (execute_valid_within (execute_valid_within h before).1 after).2

end Link

/-! Views of views. -/

namespace Valid

theorem eq_cursor_of_view (h : Valid c) {range : Range} (made : (view range c).outcome = .value v) :
    range.Fits c ∧ v = range.cursor c := by
  rw [h.view_cursor] at made
  split at made
  · cases made
    exact ⟨‹_›, rfl⟩
  · cases made

theorem view_exact_exact (h : Valid c) {a n : Nat} (made : (view (.exact a n) c).outcome = .value v)
    (b m : Nat) :
    (view (.exact b m) v).outcome =
      if b + m ≤ n then (view (.exact (a + b) m) c).outcome else .error (.outOfRange b m n) := by
  obtain ⟨fits, rfl⟩ := h.eq_cursor_of_view made
  have outer : a + n ≤ c.length := fits
  rw [(h.cursor_valid fits).view_cursor, h.view_cursor]
  change (if b + m ≤ n then _ else _ : Reply _ _ _).outcome = _
  split
  · have inner : (Range.exact (a + b) m).Fits c := show a + b + m ≤ c.length by omega
    rw [if_pos inner]
    simp only [Range.cursor, Range.bounds, Nat.add_assoc]
  · rfl

theorem view_exactTail_exactTail (h : Valid c) {a : Nat}
    (made : (view (.exactTail a) c).outcome = .value v) {b : Nat} (inside : a + b ≤ c.length) :
    (view (.exactTail b) v).outcome = (view (.exactTail (a + b)) c).outcome := by
  obtain ⟨fits, rfl⟩ := h.eq_cursor_of_view made
  have inner : (Range.exactTail b).Fits ((Range.exactTail a).cursor c) :=
    show b ≤ c.length - a by omega
  have direct : (Range.exactTail (a + b)).Fits c := inside
  rw [(h.cursor_valid fits).view_cursor, if_pos inner, h.view_cursor, if_pos direct]
  simp only [Range.cursor, Range.bounds, Nat.add_assoc, Nat.sub_sub]

/-- Clamping twice is clamping once, unless the second offset is beyond the first size. -/
theorem view_clamped_clamped (h : Valid c) {a n : Nat}
    (made : (view (.clamped a n) c).outcome = .value v) {b : Nat} (inside : b ≤ n) (m : Nat) :
    (view (.clamped b m) v).outcome =
      (view (.clamped (a + b) (min m (n - b))) c).outcome := by
  obtain ⟨fits, rfl⟩ := h.eq_cursor_of_view made
  have always {d : ByteCursor} (offset size : Nat) : (Range.clamped offset size).Fits d :=
    Nat.zero_le _
  rw [(h.cursor_valid fits).view_cursor, if_pos (always b m), h.view_cursor, if_pos (always _ _)]
  have cut (size offset : Nat) : size - min offset size = size - offset := by omega
  simp only [Range.cursor, Range.bounds, clamp, cut, Nat.add_assoc, Outcome.value.injEq, mk.injEq,
    true_and, and_true]
  constructor
  · omega
  · omega

end Valid

/-- From any cursor over a block, after any chain of views and commands: if the steps that change
what is visible were answered, the bytes shown are the slices that the chain names, one after the
other. Every window lies in those of the cursors above it. A view is made exactly when its range
fits the window of the cursor it is made from, and starts at its own first byte; a view of bits
shows the bits of the same bytes. Views of views are views. -/
theorem chain_shows_slices (reached : Reachable c) (chain : List Link) :
    let s := Action.execute Link.run chain c
    c.visible = .ok c.window ∧ s.visible = .ok s.window ∧
    (Link.Answered chain c →
      s.window = chain.foldl (fun bytes link => link.slice bytes) c.window) ∧
    (∀ before after, chain = before ++ after → Within (Action.execute Link.run before c) s) ∧
    (∀ length, (∃ a, (truncate length s).outcome = .value a) ↔ length ≤ s.length) ∧
    (∀ range : Range,
      ((∃ v, (view range s).outcome = .value v) ↔
        range.request.1 + range.request.2 ≤ s.length) ∧
      (∀ v, (view range s).outcome = .value v →
        v.visible = .ok (range.slice s.window) ∧ v.position = 0 ∧
        ∀ before after, chain = before ++ after → Within (Action.execute Link.run before c) v) ∧
      ((∃ b, (bitView range s).outcome = .value b) ↔
        range.request.1 + range.request.2 ≤ s.length) ∧
      ∀ b, (bitView range s).outcome = .value b →
        b.visible = Bytes.bits (range.slice s.window) ∧ b.position = 0) ∧
    (∀ a n v, (view (.exact a n) s).outcome = .value v → ∀ b m,
      (view (.exact b m) v).outcome =
        if b + m ≤ n then (view (.exact (a + b) m) s).outcome else .error (.outOfRange b m n)) ∧
    (∀ a v, (view (.exactTail a) s).outcome = .value v → ∀ b, a + b ≤ s.length →
      (view (.exactTail b) v).outcome = (view (.exactTail (a + b)) s).outcome) ∧
    ∀ a n v, (view (.clamped a n) s).outcome = .value v → ∀ b, b ≤ n → ∀ m,
      (view (.clamped b m) v).outcome =
        (view (.clamped (a + b) (min m (n - b))) s).outcome := by
  intro s
  have start := reached.valid
  have valid : Valid s := (Link.execute_valid_within start chain).1
  have above : ∀ before after, chain = before ++ after →
      Within (Action.execute Link.run before c) s := by
    rintro before after rfl
    exact Link.execute_within_of_append start before after
  refine ⟨start.visible_eq, valid.visible_eq, Link.window_execute start, above, ?_, ?_,
    fun a n v made b m => valid.view_exact_exact made b m,
    fun a v made b inside => valid.view_exactTail_exactTail made inside,
    fun a n v made b inside m => valid.view_clamped_clamped made inside m⟩
  · intro length
    rw [Valid.truncate_apply]
    split <;> simp [*]
  · intro range
    refine ⟨?_, ?_, ?_, ?_⟩
    · rw [valid.view_apply]
      split <;> simp [*]
    · intro v made
      obtain ⟨fits, rfl⟩ := valid.eq_cursor_of_view made
      refine ⟨?_, rfl, ?_⟩
      · rw [(valid.cursor_valid fits).visible_eq, valid.window_cursor fits]
      · intro before after parts
        exact (above before after parts).trans (Valid.cursor_within fits)
    · rw [valid.bitView_apply]
      split <;> simp [*]
    · intro b made
      rw [valid.bitView_apply] at made
      split at made
      · rename_i fits
        cases made
        exact ⟨valid.visible_bitCursor fits, rfl⟩
      · cases made

/-- A view of a view, with a move, a clamped size and a truncation on the way. -/
theorem chain_shows_slices_nested :
    let c := ofBytes [10, 11, 12, 13, 14, 15, 16, 17, 18, 19]
    let chain : List Link := [.view (.exactTail 2), .obey (.seek 3), .view (.clamped 1 100),
      .obey (.truncate 4), .view (.exact 1 2)]
    Reachable c ∧ Link.Answered chain c ∧
      (Action.execute Link.run chain c).window = [14, 15] ∧
      Within c (Action.execute Link.run chain c) := by
  have reached : Reachable (ofBytes [10, 11, 12, 13, 14, 15, 16, 17, 18, 19]) := .whole (by decide)
  have answered : Link.Answered [.view (.exactTail 2), .obey (.seek 3), .view (.clamped 1 100),
      .obey (.truncate 4), .view (.exact 1 2)]
      (ofBytes [10, 11, 12, 13, 14, 15, 16, 17, 18, 19]) :=
    ⟨fun _ => rfl, fun _ => rfl, fun _ => rfl, fun _ => rfl, fun _ => rfl, trivial⟩
  obtain ⟨-, -, slices, above, -⟩ := chain_shows_slices reached _
  exact ⟨reached, answered, slices answered, above [] _ rfl⟩

end BinaryStream.ByteCursor
