import BinaryStream.Proofs.ByteCursor.Views
import BinaryStream.Proofs.Run

/-!
Safety of byte cursors. Every cursor that the library makes and every state that commands lead to is
valid. From a valid cursor no command faults, a failing one changes nothing, only truncation changes
the window, and a strict command fails exactly when its range, over the natural numbers, is not
inside of the window.
-/
namespace BinaryStream.ByteCursor

/-- The cursors that come from a block shorter than `2 ^ 61` bytes by opening it, by commands and by
views, in any order. -/
inductive Reachable : ByteCursor → Prop where
  | whole {data : List UInt8} (small : data.length < 2 ^ 61) : Reachable (ofBytes data)
  | opened {data : List UInt8} {position : Nat} {c : ByteCursor} (small : data.length < 2 ^ 61)
      (made : (openAt data position ()).outcome = .value c) : Reachable c
  | ran {c : ByteCursor} (before : Reachable c) (command : Command) :
      Reachable (command.run c).state
  | viewed {c v : ByteCursor} {range : Range} (before : Reachable c)
      (made : (view range c).outcome = .value v) : Reachable v

variable {c : ByteCursor}

/-- What every command but truncation keeps. -/
structure Keeps (c : ByteCursor) {α : Type} (r : Reply ByteCursor AccessError α) : Prop where
  no_fault : ∀ f, r.outcome ≠ .fault f
  unchanged : ∀ e, r.outcome = .error e → r.state = c
  data_eq : r.state.data = c.data
  start_eq : r.state.start = c.start
  length_eq : r.state.length = c.length
  position_le : r.state.position ≤ c.length

namespace Keeps

variable {α β : Type}

theorem moved (a : α) {position : Nat} (inside : position ≤ c.length) :
    Keeps c ⟨.value a, { c with position }, []⟩ :=
  ⟨nofun, nofun, rfl, rfl, rfl, inside⟩

theorem stayed (h : Framed c) (a : α) : Keeps c ⟨.value a, c, []⟩ := moved a h.position_le

theorem refused (h : Framed c) (e : AccessError) : Keeps c (Action.refuse e c : Reply _ _ α) :=
  ⟨nofun, fun _ _ => rfl, rfl, rfl, rfl, h.position_le⟩

theorem ite {p : Prop} [Decidable p] {r r' : Reply ByteCursor AccessError α}
    (first : p → Keeps c r) (second : ¬p → Keeps c r') : Keeps c (if p then r else r') := by
  split
  · exact first ‹_›
  · exact second ‹_›

theorem map {x : Action ByteCursor AccessError α} (f : α → β) (h : Keeps c (x c)) :
    Keeps c ((x >>= fun a => (Pure.pure (f a) : Action ByteCursor AccessError β)) c) := by
  rw [Action.bind_pure_apply]
  refine ⟨?_, ?_, h.data_eq, h.start_eq, h.length_eq, h.position_le⟩
  · intro g
    exact mt Outcome.map_eq_fault.mp (h.no_fault g)
  · intro e failed
    exact h.unchanged e (Outcome.map_eq_error.mp failed)

/-- A strict request that moves to `position` when it is answered. -/
theorem strict (h : Framed c) {p : Prop} [Decidable p] {a : α} {position : Nat} {e : AccessError}
    {r : Reply ByteCursor AccessError α}
    (answer : r = if p then ⟨.value a, { c with position }, []⟩ else Action.refuse e c)
    (inside : p → position ≤ c.length) : Keeps c r := by
  rw [answer]
  exact ite (fun holds => moved a (inside holds)) fun _ => refused h e

theorem framed (h : Framed c) {r : Reply ByteCursor AccessError α} (keeps : Keeps c r) :
    Framed r.state := by
  refine ⟨?_, ?_, ?_⟩
  · rw [keeps.data_eq]
    exact h.data_word
  · rw [keeps.start_eq, keeps.length_eq, keeps.data_eq]
    exact h.window_le
  · rw [keeps.length_eq]
    exact keeps.position_le

end Keeps

/-- Over a block of any size every command but truncation keeps the window; a view of bits may end
in a fault there. -/
theorem Command.run_keeps_framed (h : Framed c) (command : Command)
    (not_truncate : ∀ length, command ≠ .truncate length)
    (not_bitView : ∀ range, command ≠ .bitView range) : Keeps c (command.run c) := by
  have here := h.position_le
  cases command with
  | seek position => exact .map _ (.strict h (h.seek_apply position) id)
  | skip size => exact .map _ (.strict h (h.skip_apply size) id)
  | skipIf expected =>
    apply Keeps.map
    rw [h.skipIf_apply]
    refine .ite (fun found => .moved _ ?_) fun _ => .stayed h _
    have shorter := found.length_le
    rw [List.length_drop, h.length_window] at shorter
    omega
  | truncate length => exact absurd rfl (not_truncate length)
  | all => exact .map _ (h.all_apply ▸ .stayed h _)
  | readAt offset size => exact .map _ (.strict h (h.readAt_apply offset size) fun _ => here)
  | peek size => exact .map _ (.strict h (h.peek_apply size) fun _ => here)
  | read size => exact .map _ (.strict h (h.read_apply size) id)
  | fillAt offset buffer =>
    exact .map _ (.strict h (h.readAt_apply offset buffer.length) fun _ => here)
  | fill buffer => exact .map _ (.strict h (h.read_apply buffer.length) id)
  | readUpToAt offset size => exact .map _ (h.readUpToAt_apply offset size ▸ .stayed h _)
  | readUpTo size =>
    refine .map _ (h.readUpTo_apply size ▸ .moved _ ?_)
    simp only [remaining]
    omega
  | fillUpToAt offset buffer =>
    rw [Command.run, Action.bind_of_value (h.fillUpToAt_apply offset buffer)]
    exact .stayed h _
  | fillUpTo buffer =>
    rw [Command.run, Action.bind_of_value (h.fillUpTo_apply buffer)]
    refine .moved _ ?_
    simp only [remaining]
    omega
  | getAt l offset => exact .map _ (.strict h (h.getAt_apply l offset) fun _ => here)
  | get l => exact .map _ (.strict h (h.get_apply l) id)
  | getArrayAt l offset count =>
    exact .map _ (.strict h (h.getArrayAt_apply l offset count) fun _ => here)
  | getArray l count => exact .map _ (.strict h (h.getArray_apply l count) id)
  | getStringAt offset =>
    apply Keeps.map
    rw [h.getStringAt_apply]
    exact .ite (fun _ => .ite (fun _ => .stayed h _) fun _ => .refused h _) fun _ => .refused h _
  | getString => exact .map _ (.strict h h.getString_apply fun ends => h.string_le ends)
  | getLine => exact .map _ (.strict h h.getLine_apply fun _ => h.line_le)
  | view range => exact .map _ (.strict h (h.view_apply range) fun _ => here)
  | bitView range => exact absurd rfl (not_bitView range)

theorem Command.run_keeps (h : Valid c) (command : Command)
    (not_truncate : ∀ length, command ≠ .truncate length) : Keeps c (command.run c) := by
  by_cases bits : ∃ range, command = .bitView range
  · obtain ⟨range, rfl⟩ := bits
    exact .map _ (.strict h.toFramed (h.bitView_apply range) fun _ => h.position_le)
  · exact command.run_keeps_framed h.toFramed not_truncate fun range same => bits ⟨range, same⟩

/-- The range that a strict command asks for, over the natural numbers. -/
def Command.demand (c : ByteCursor) : Command → Option (Nat × Nat)
  | .seek position => some (position, 0)
  | .skip size | .peek size | .read size => some (c.position, size)
  | .truncate length => some (0, length)
  | .readAt offset size => some (offset, size)
  | .fillAt offset buffer => some (offset, buffer.length)
  | .fill buffer => some (c.position, buffer.length)
  | .getAt l offset => some (offset, l.size)
  | .get l => some (c.position, l.size)
  | .getArrayAt l offset count => some (offset, count * l.size)
  | .getArray l count => some (c.position, count * l.size)
  | .view (.exact offset size) | .bitView (.exact offset size) => some (offset, size)
  | .view (.exactTail offset) | .bitView (.exactTail offset) => some (offset, 0)
  | .view (.clamped _ _) | .view (.clampedTail _) | .bitView (.clamped _ _)
  | .bitView (.clampedTail _) | .skipIf _ | .all | .readUpToAt _ _ | .readUpTo _ | .fillUpToAt _ _
  | .fillUpTo _ | .getStringAt _ | .getString | .getLine => none

/-- The size in the refusal of a strict command: only that of an array may be no word. -/
def Command.reported (size : Nat) : Command → Nat
  | .getArrayAt _ _ _ | .getArray _ _ => Size.reported size
  | _ => size

/-- Commands that clamp their range to the window or ask for none. -/
def Command.Tolerant : Command → Prop
  | .skipIf _ | .all | .readUpToAt _ _ | .readUpTo _ | .fillUpToAt _ _ | .fillUpTo _
  | .view (.clamped _ _) | .view (.clampedTail _) | .bitView (.clamped _ _)
  | .bitView (.clampedTail _) => True
  | _ => False

/-- The cursor after a strict command that is answered: a sequential one passes its range. -/
def Command.settled (c : ByteCursor) (size : Nat) : Command → ByteCursor
  | .seek position => { c with position }
  | .truncate length => { c with length, position := min c.position length }
  | .skip _ | .read _ | .fill _ | .get _ | .getArray _ _ =>
    { c with position := c.position + size }
  | _ => c

theorem Command.run_of_demand (h : Valid c) {command : Command} {offset size : Nat}
    (demands : command.demand c = some (offset, size)) :
    ∃ answer, command.run c =
      if offset + size ≤ c.length then ⟨.value answer, command.settled c size, []⟩
      else Action.refuse (.outOfRange offset (command.reported size) c.length) c := by
  cases command with
  | seek => cases demands; exact ⟨_, Action.bind_of_ite _ (h.seek_apply _)⟩
  | skip => cases demands; exact ⟨_, Action.bind_of_ite _ (h.skip_apply _)⟩
  | truncate =>
    cases demands
    rw [Nat.zero_add]
    exact ⟨_, Action.bind_of_ite _ (Valid.truncate_apply _)⟩
  | readAt => cases demands; exact ⟨_, Action.bind_of_ite _ (h.readAt_apply _ _)⟩
  | peek => cases demands; exact ⟨_, Action.bind_of_ite _ (h.peek_apply _)⟩
  | read => cases demands; exact ⟨_, Action.bind_of_ite _ (h.read_apply _)⟩
  | fillAt => cases demands; exact ⟨_, Action.bind_of_ite _ (h.readAt_apply _ _)⟩
  | fill => cases demands; exact ⟨_, Action.bind_of_ite _ (h.read_apply _)⟩
  | getAt => cases demands; exact ⟨_, Action.bind_of_ite _ (h.getAt_apply _ _)⟩
  | get => cases demands; exact ⟨_, Action.bind_of_ite _ (h.get_apply _)⟩
  | getArrayAt => cases demands; exact ⟨_, Action.bind_of_ite _ (h.getArrayAt_apply _ _ _)⟩
  | getArray => cases demands; exact ⟨_, Action.bind_of_ite _ (h.getArray_apply _ _)⟩
  | view range =>
    cases range with
    | exact => cases demands; exact ⟨_, Action.bind_of_ite _ (h.view_apply (.exact _ _))⟩
    | exactTail => cases demands; exact ⟨_, Action.bind_of_ite _ (h.view_apply (.exactTail _))⟩
    | clamped | clampedTail => cases demands
  | bitView range =>
    cases range with
    | exact => cases demands; exact ⟨_, Action.bind_of_ite _ (h.bitView_apply (.exact _ _))⟩
    | exactTail =>
      cases demands
      exact ⟨_, Action.bind_of_ite _ (h.bitView_apply (.exactTail _))⟩
    | clamped | clampedTail => cases demands
  | skipIf | all | readUpToAt | readUpTo | fillUpToAt | fillUpTo | getStringAt | getString
  | getLine => cases demands

theorem Command.run_of_tolerant (h : Valid c) {command : Command} (tolerant : command.Tolerant) :
    ∃ answer, (command.run c).outcome = .value answer := by
  cases command with
  | skipIf expected =>
    rw [Command.run, Action.bind_pure_apply, h.skipIf_apply]
    split <;> exact ⟨_, rfl⟩
  | all => rw [Command.run, Action.bind_of_value h.all_apply]; exact ⟨_, rfl⟩
  | readUpToAt =>
    rw [Command.run, Action.bind_of_value (h.readUpToAt_apply _ _)]; exact ⟨_, rfl⟩
  | readUpTo => rw [Command.run, Action.bind_of_value (h.readUpTo_apply _)]; exact ⟨_, rfl⟩
  | fillUpToAt =>
    rw [Command.run, Action.bind_of_value (h.fillUpToAt_apply _ _)]; exact ⟨_, rfl⟩
  | fillUpTo => rw [Command.run, Action.bind_of_value (h.fillUpTo_apply _)]; exact ⟨_, rfl⟩
  | view range =>
    rw [Command.run, Action.bind_of_ite _ (h.view_apply range)]
    cases range with
    | clamped | clampedTail => exact ⟨_, rfl⟩
    | exact | exactTail => cases tolerant
  | bitView range =>
    rw [Command.run, Action.bind_of_ite _ (h.bitView_apply range)]
    cases range with
    | clamped | clampedTail => exact ⟨_, rfl⟩
    | exact | exactTail => cases tolerant
  | seek | skip | truncate | readAt | peek | read | fillAt | fill | getAt | get | getArrayAt
  | getArray | getStringAt | getString | getLine => cases tolerant

theorem Command.run_truncate (length : Nat) :
    Command.run (.truncate length) c =
      if length ≤ c.length then
        ⟨.value .done, { c with length, position := min c.position length }, []⟩
      else Action.refuse (.outOfRange 0 length c.length) c :=
  Action.bind_of_ite _ (Valid.truncate_apply length)

theorem Command.run_framed (h : Framed c) (command : Command) : Framed (command.run c).state := by
  by_cases truncates : ∃ length, command = .truncate length
  · obtain ⟨length, rfl⟩ := truncates
    rw [run_truncate]
    split
    · exact h.truncated ‹_›
    · exact h
  by_cases bits : ∃ range, command = .bitView range
  · obtain ⟨range, rfl⟩ := bits
    rw [run, Action.bind_pure_apply, h.state_bitView]
    exact h
  have keeps := command.run_keeps_framed h (fun length same => truncates ⟨length, same⟩)
    fun range same => bits ⟨range, same⟩
  exact keeps.framed h

/-- The same window, or a shorter one with the same start. -/
structure Narrows (c s : ByteCursor) : Prop where
  data_eq : s.data = c.data
  start_eq : s.start = c.start
  length_le : s.length ≤ c.length

theorem Command.run_narrows (h : Valid c) (command : Command) :
    Narrows c (command.run c).state := by
  by_cases truncates : ∃ length, command = .truncate length
  · obtain ⟨length, rfl⟩ := truncates
    rw [run_truncate]
    split
    · exact ⟨rfl, rfl, ‹_›⟩
    · exact ⟨rfl, rfl, Nat.le_refl _⟩
  · have keeps := command.run_keeps h fun length same => truncates ⟨length, same⟩
    exact ⟨keeps.data_eq, keeps.start_eq, Nat.le_of_eq keeps.length_eq⟩

theorem Command.run_valid (h : Valid c) (command : Command) : Valid (command.run c).state :=
  ⟨command.run_framed h.toFramed, by rw [(command.run_narrows h).data_eq]; exact h.data_lt⟩

theorem Command.run_atomic (h : Valid c) (command : Command) :
    (∀ f, (command.run c).outcome ≠ .fault f) ∧
      ∀ e, (command.run c).outcome = .error e → (command.run c).state = c := by
  by_cases truncates : ∃ length, command = .truncate length
  · obtain ⟨length, rfl⟩ := truncates
    rw [run_truncate]
    split
    · exact ⟨nofun, nofun⟩
    · exact ⟨nofun, fun _ _ => rfl⟩
  · have keeps := command.run_keeps h fun length same => truncates ⟨length, same⟩
    exact ⟨keeps.no_fault, keeps.unchanged⟩

theorem execute_valid_narrows (h : Valid c) (commands : List Command) :
    Valid (Action.execute Command.run commands c) ∧
      Narrows c (Action.execute Command.run commands c) := by
  apply Action.execute_invariant (fun s => Valid s ∧ Narrows c s)
  · rintro command s ⟨valid, narrows⟩
    have next := command.run_narrows valid
    exact ⟨command.run_valid valid, next.data_eq.trans narrows.data_eq,
      next.start_eq.trans narrows.start_eq, Nat.le_trans next.length_le narrows.length_le⟩
  · exact ⟨h, rfl, rfl, Nat.le_refl _⟩

theorem eq_of_openAt {data : List UInt8} {position : Nat} (word : data.length < Size.limit)
    (made : (openAt data position ()).outcome = .value c) :
    position ≤ data.length ∧ c = { ofBytes data with position } := by
  rw [openAt, Action.checkRange_bind_apply word] at made
  split at made
  · cases made
    exact ⟨‹_›, rfl⟩
  · cases made

theorem Reachable.valid (reached : Reachable c) : Valid c := by
  induction reached with
  | @whole data small => exact .of small (Nat.le_of_eq (Nat.zero_add _)) (Nat.zero_le _)
  | @opened data position c small made =>
    obtain ⟨inside, rfl⟩ := eq_of_openAt (Nat.lt_trans small (by decide)) made
    exact .of small (Nat.le_of_eq (Nat.zero_add _)) inside
  | ran _ command valid => exact command.run_valid valid
  | viewed _ made valid =>
    obtain ⟨framed, data⟩ := valid.of_view made
    exact ⟨framed, by rw [data]; exact valid.data_lt⟩

/-- The cursors that come from any block of memory, however large, in the same ways. -/
inductive InMemory : ByteCursor → Prop where
  | whole {data : List UInt8} (small : data.length < Size.blockLimit) : InMemory (ofBytes data)
  | opened {data : List UInt8} {position : Nat} {c : ByteCursor}
      (small : data.length < Size.blockLimit)
      (made : (openAt data position ()).outcome = .value c) : InMemory c
  | ran {c : ByteCursor} (before : InMemory c) (command : Command) : InMemory (command.run c).state
  | viewed {c v : ByteCursor} {range : Range} (before : InMemory c)
      (made : (view range c).outcome = .value v) : InMemory v

theorem InMemory.framed (held : InMemory c) : Framed c := by
  have words : Size.blockLimit < Size.limit := by decide
  induction held with
  | @whole data small =>
    exact ⟨Nat.lt_trans small words, Nat.le_of_eq (Nat.zero_add _), Nat.zero_le _⟩
  | @opened data position c small made =>
    have word := Nat.lt_trans small words
    obtain ⟨inside, rfl⟩ := eq_of_openAt word made
    exact ⟨word, Nat.le_of_eq (Nat.zero_add _), inside⟩
  | ran _ command framed => exact command.run_framed framed
  | viewed _ made framed => exact (framed.of_view made).1

/-- The state after any run from a reachable cursor has its window in the block and its position in
the window. The next command, whatever its arguments, ends in an answer or in an error; an error
changes nothing; only truncation changes the window. A strict command fails exactly when its range
is not inside of the window, and names the request and the window's length; one that is answered
passes its range or does not move. -/
theorem reachable_run_safe (reached : Reachable c) (commands : List Command) (command : Command) :
    let s := Action.execute Command.run commands c
    let r := command.run s
    (s.start + s.length ≤ s.data.length ∧ s.position ≤ s.length ∧
      s.remaining + s.position = s.length) ∧
    (s.data = c.data ∧ s.start = c.start ∧ s.length ≤ c.length) ∧
    (∀ f, r.outcome ≠ .fault f) ∧
    (∀ e, r.outcome = .error e → r.state = s) ∧
    ((∀ length, command ≠ .truncate length) → r.state.length = s.length) ∧
    (∀ length, command = .truncate length → length ≤ s.length →
      r.state = { s with length, position := min s.position length }) ∧
    (∀ offset size, command.demand s = some (offset, size) →
      ((∃ e, r.outcome = .error e) ↔ ¬ offset + size ≤ s.length) ∧
      (¬ offset + size ≤ s.length →
        r.outcome = .error (.outOfRange offset (command.reported size) s.length)) ∧
      (offset + size ≤ s.length → r.state = command.settled s size)) ∧
    (command.Tolerant → ∃ answer, r.outcome = .value answer) := by
  intro s r
  obtain ⟨valid, narrows⟩ : Valid s ∧ Narrows c s := execute_valid_narrows reached.valid commands
  obtain ⟨no_fault, unchanged⟩ := command.run_atomic valid
  refine ⟨⟨valid.window_le, valid.position_le, valid.remaining_add_position⟩,
    ⟨narrows.data_eq, narrows.start_eq, narrows.length_le⟩, no_fault, unchanged,
    fun other => (command.run_keeps valid other).length_eq, ?_, ?_,
    fun tolerant => command.run_of_tolerant valid tolerant⟩
  · rintro length rfl inside
    change (Command.run (.truncate length) s).state = _
    rw [Command.run_truncate, if_pos inside]
  · intro offset size demands
    obtain ⟨answer, ran⟩ := command.run_of_demand valid demands
    simp only [r, ran]
    split
    · rename_i inside
      exact ⟨⟨nofun, fun outside => absurd inside outside⟩, fun outside => absurd inside outside,
        fun _ => rfl⟩
    · rename_i outside
      exact ⟨⟨fun _ => outside, fun _ => ⟨_, rfl⟩⟩, fun _ => rfl,
        fun inside => absurd inside outside⟩

/-- An array whose byte count wraps around is refused on a truncated view, and the view stays. -/
theorem reachable_run_safe_wrapping_array :
    let c : ByteCursor := ⟨[1, 2, 3, 4], 1, 3, 0⟩
    let commands : List Command := [.seek 2, .truncate 1]
    let command : Command := .getArray ⟨.big, .unsigned .w16⟩ 0x8000000000000000
    Reachable c ∧ Action.execute Command.run commands c = ⟨[1, 2, 3, 4], 1, 1, 1⟩ ∧
      command.demand ⟨[1, 2, 3, 4], 1, 1, 1⟩ = some (1, 0x10000000000000000) ∧
      (command.run ⟨[1, 2, 3, 4], 1, 1, 1⟩).outcome =
        .error (.outOfRange 1 0xFFFFFFFFFFFFFFFF 1) := by
  have whole : Reachable (ofBytes [1, 2, 3, 4]) := .whole (by decide)
  have made : (view (.exactTail 1) (ofBytes [1, 2, 3, 4])).outcome =
      .value ⟨[1, 2, 3, 4], 1, 3, 0⟩ := rfl
  have reached : Reachable ⟨[1, 2, 3, 4], 1, 3, 0⟩ := .viewed whole made
  obtain ⟨-, -, -, -, -, -, strict, -⟩ := reachable_run_safe reached [.seek 2, .truncate 1]
    (.getArray ⟨.big, .unsigned .w16⟩ 0x8000000000000000)
  have refused := (strict 1 0x10000000000000000 rfl).2.1 (by decide)
  exact ⟨reached, rfl, rfl, refused⟩

end BinaryStream.ByteCursor
