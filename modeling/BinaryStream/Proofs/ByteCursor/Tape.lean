import BinaryStream.Proofs.BitCursor.Tape
import BinaryStream.Proofs.ByteCursor.Chain

/-!
What can be seen of a byte cursor: the bytes of its window and its place in them. A command is
answered as on a cursor over a block that is the window and nothing else, so two cursors that look
the same are answered the same, whatever stands around their windows.
-/
namespace BinaryStream

structure ByteTape where
  bytes : List UInt8
  position : Nat
  deriving DecidableEq

namespace ByteCursor

variable {c d : ByteCursor}

def tape (c : ByteCursor) : ByteTape := ⟨c.window, c.position⟩

/-- The same place in a block that is the window and nothing else. -/
def alone (c : ByteCursor) : ByteCursor := ⟨c.window, 0, c.length, c.position⟩

theorem window_alone (c : ByteCursor) : c.alone.window = c.window := by
  simp only [alone, window, List.drop_zero, List.take_take, Nat.min_self]

@[simp] theorem alone_length (c : ByteCursor) : c.alone.length = c.length := rfl

@[simp] theorem alone_position (c : ByteCursor) : c.alone.position = c.position := rfl

theorem Valid.alone (h : Valid c) : Valid c.alone := by
  have whole := h.length_window
  refine .of ?_ ?_ h.position_le
  · change c.window.length < 2 ^ 61
    have := h.data_lt
    have := h.window_le
    omega
  · change 0 + c.length ≤ c.window.length
    omega

/-- Valid cursors that show the same bytes and stand at the same place in them. -/
structure Alike (c d : ByteCursor) : Prop where
  left : Valid c
  right : Valid d
  tape_eq : c.tape = d.tape

namespace Alike

theorem window_eq (same : Alike c d) : c.window = d.window := congrArg ByteTape.bytes same.tape_eq

theorem position_eq (same : Alike c d) : c.position = d.position :=
  congrArg ByteTape.position same.tape_eq

theorem length_eq (same : Alike c d) : c.length = d.length := by
  rw [← same.left.length_window, ← same.right.length_window, same.window_eq]

theorem alone_eq (same : Alike c d) : c.alone = d.alone := by
  rw [ByteCursor.alone, ByteCursor.alone, same.window_eq, same.position_eq, same.length_eq]

end Alike

/-- What can be seen of an answer: of a cursor, its tape. -/
inductive Sight where
  | plain (answer : Answer)
  | bytes (tape : ByteTape)
  | bits (tape : BitTape)

def Answer.sight : Answer → Sight
  | .cursor v => .bytes v.tape
  | .bits v => .bits v.tape
  | answer => .plain answer

def look (r : Reply ByteCursor AccessError Answer) : Reply ByteTape AccessError Sight :=
  ⟨r.outcome.map Answer.sight, r.state.tape, r.events⟩

theorem look_moved (a : Answer) (position : Nat) :
    look ⟨.value a, { c with position }, []⟩ = look ⟨.value a, { c.alone with position }, []⟩ := by
  change (⟨.value a.sight, ⟨c.window, position⟩, []⟩ : Reply ByteTape AccessError Sight) =
    ⟨.value a.sight, ⟨c.alone.window, position⟩, []⟩
  rw [window_alone]

theorem look_stayed (a : Answer) : look ⟨.value a, c, []⟩ = look ⟨.value a, c.alone, []⟩ :=
  look_moved a c.position

theorem look_refused (e : AccessError) :
    look (Action.refuse e c) = look (Action.refuse e c.alone) := by
  simp only [look, tape, Action.refuse_apply, window_alone]
  rfl

theorem look_ite {p : Prop} [Decidable p] {r₁ r₂ s₁ s₂ : Reply ByteCursor AccessError Answer}
    (first : p → look r₁ = look s₁) (second : ¬p → look r₂ = look s₂) :
    look (if p then r₁ else r₂) = look (if p then s₁ else s₂) := by
  split
  · exact first ‹_›
  · exact second ‹_›

/-- A strict request that moves to `position` when it is answered. -/
theorem look_strict {α : Type} {x : Action ByteCursor AccessError α} {f : α → Answer} {p : Prop}
    [Decidable p] {a b : α} {position : Nat} {e : AccessError}
    (left : x c = if p then ⟨.value a, { c with position }, []⟩ else Action.refuse e c)
    (right : x c.alone =
      if p then ⟨.value b, { c.alone with position }, []⟩ else Action.refuse e c.alone)
    (same : p → (f a).sight = (f b).sight) :
    look ((x >>= fun a => (pure (f a) : Action ByteCursor AccessError Answer)) c) =
      look ((x >>= fun a => (pure (f a) : Action ByteCursor AccessError Answer)) c.alone) := by
  rw [Action.bind_of_ite _ left, Action.bind_of_ite _ right]
  refine look_ite (fun holds => ?_) fun _ => look_refused e
  rw [Action.pure_apply, Action.pure_apply, look_moved]
  simp only [look, Outcome.map, same holds]

/-- A command is answered as on the window alone. -/
theorem Command.look_run (h : Valid c) (command : Command) :
    look (command.run c) = look (command.run c.alone) := by
  have seen := c.window_alone
  have h' := h.alone
  cases command with
  | seek position =>
    exact look_strict (h.seek_apply position) (h'.seek_apply position) fun _ => rfl
  | skip size =>
    exact look_strict (h.skip_apply size) (h'.skip_apply size) fun _ => rfl
  | skipIf expected =>
    rw [Command.run, Action.bind_pure_apply, Action.bind_pure_apply, h.skipIf_apply,
      h'.skipIf_apply, seen, alone_position]
    split
    · exact look_moved _ _
    · exact look_stayed _
  | truncate length =>
    rw [run_truncate, run_truncate]
    refine look_ite (fun inside => ?_) fun _ => look_refused _
    have left := window_truncated inside (min c.position length)
    have right := window_truncated (c := c.alone) inside (min c.position length)
    rw [seen, ← left] at right
    simp only [look, tape, right, alone_position]
  | all =>
    rw [Command.run, Action.bind_of_value h.all_apply, Action.bind_of_value h'.all_apply, seen]
    exact look_stayed _
  | readAt offset size =>
    exact look_strict (h.readAt_apply offset size)
      (h'.readAt_apply offset size) fun _ => by rw [seen]
  | peek size =>
    exact look_strict (h.peek_apply size) (h'.peek_apply size) fun _ => by rw [seen]; rfl
  | read size =>
    exact look_strict (h.read_apply size) (h'.read_apply size) fun _ => by rw [seen]; rfl
  | fillAt offset buffer =>
    exact look_strict (h.readAt_apply offset buffer.length)
      (h'.readAt_apply offset buffer.length) fun _ => by rw [seen]
  | fill buffer =>
    exact look_strict (h.read_apply buffer.length)
      (h'.read_apply buffer.length) fun _ => by rw [seen]; rfl
  | readUpToAt offset size =>
    rw [Command.run, Action.bind_of_value (h.readUpToAt_apply offset size),
      Action.bind_of_value (h'.readUpToAt_apply offset size), seen]
    exact look_stayed _
  | readUpTo size =>
    rw [Command.run, Action.bind_of_value (h.readUpTo_apply size),
      Action.bind_of_value (h'.readUpTo_apply size), seen]
    exact look_moved _ _
  | fillUpToAt offset buffer =>
    rw [Command.run, Action.bind_of_value (h.fillUpToAt_apply offset buffer),
      Action.bind_of_value (h'.fillUpToAt_apply offset buffer), seen]
    exact look_stayed _
  | fillUpTo buffer =>
    rw [Command.run, Action.bind_of_value (h.fillUpTo_apply buffer),
      Action.bind_of_value (h'.fillUpTo_apply buffer), seen]
    exact look_moved _ _
  | getAt l offset =>
    exact look_strict (h.getAt_apply l offset) (h'.getAt_apply l offset) fun _ => by rw [seen]
  | get l =>
    exact look_strict (h.get_apply l) (h'.get_apply l) fun _ => by rw [seen]; rfl
  | getArrayAt l offset count =>
    exact look_strict (h.getArrayAt_apply l offset count)
      (h'.getArrayAt_apply l offset count) fun _ => by rw [seen]
  | getArray l count =>
    exact look_strict (h.getArray_apply l count)
      (h'.getArray_apply l count) fun _ => by rw [seen]; rfl
  | getStringAt offset =>
    rw [Command.run, Action.bind_pure_apply, Action.bind_pure_apply, h.getStringAt_apply,
      h'.getStringAt_apply, seen, alone_length]
    split
    · split
      · exact look_stayed _
      · exact look_refused _
    · exact look_refused _
  | getString =>
    have ran := h'.getString_apply
    rw [seen] at ran
    exact look_strict h.getString_apply ran fun _ => rfl
  | getLine =>
    have ran := h'.getLine_apply
    rw [seen] at ran
    exact look_strict h.getLine_apply ran fun _ => rfl
  | view range =>
    refine look_strict (h.view_cursor range) (h'.view_cursor range) ?_
    intro fits
    simp only [Answer.sight, tape]
    rw [h.window_cursor fits, h'.window_cursor fits, seen]
    rfl
  | bitView range =>
    refine look_strict (h.bitView_apply range) (h'.bitView_apply range) ?_
    intro fits
    simp only [Answer.sight, BitCursor.tape]
    rw [h.visible_bitCursor fits, h'.visible_bitCursor fits, seen]

theorem Alike.look_run_eq (same : Alike c d) (command : Command) :
    look (command.run c) = look (command.run d) := by
  rw [command.look_run same.left, same.alone_eq, ← command.look_run same.right]

/-! Cursors that are made. -/

def Answer.Valid : Answer → Prop
  | .cursor v => ByteCursor.Valid v
  | .bits v => BitCursor.Valid v
  | _ => True

theorem Command.answer_valid (h : Valid c) (command : Command) {answer : Answer}
    (answered : (command.run c).outcome = .value answer) : answer.Valid := by
  cases command with
  | view range =>
    rw [Command.run, Action.bind_of_ite _ (h.view_cursor range)] at answered
    split at answered
    · cases answered
      exact h.cursor_valid ‹_›
    · cases answered
  | bitView range =>
    rw [Command.run, Action.bind_of_ite _ (h.bitView_apply range)] at answered
    split at answered
    · cases answered
      exact .viewed h ‹_›
    · cases answered
  | _ =>
    obtain ⟨_, _, made⟩ := Action.answered_of_bind answered
    cases made
    trivial

inductive Answer.Alike : Answer → Answer → Prop where
  | cursor {v w : ByteCursor} (same : ByteCursor.Alike v w) : Alike (.cursor v) (.cursor w)
  | bits {v w : BitCursor} (same : BitCursor.Alike v w) : Alike (.bits v) (.bits w)
  | plain {answer : Answer} (closed : answer.sight = .plain answer) : Alike answer answer

theorem Answer.eq_of_sight_eq_plain {a b : Answer} (same : b.sight = .plain a) : b = a := by
  cases b with
  | cursor w => cases same
  | bits w => cases same
  | _ => exact Sight.plain.inj same

theorem Answer.alike_of_sight_eq {a b : Answer} (left : a.Valid) (right : b.Valid)
    (same : a.sight = b.sight) : Alike a b := by
  cases a with
  | cursor v =>
    cases b with
    | cursor w => exact .cursor ⟨left, right, Sight.bytes.inj same⟩
    | _ => cases same
  | bits v =>
    cases b with
    | bits w => exact .bits ⟨left, right, Sight.bits.inj same⟩
    | _ => cases same
  | _ =>
    cases Answer.eq_of_sight_eq_plain same.symm
    exact .plain rfl

/-- Cursors that look the same are answered the same, with cursors that look the same. -/
theorem Alike.run (same : Alike c d) (command : Command) :
    Reply.Related Answer.Alike Alike (command.run c) (command.run d) := by
  obtain ⟨outcomes, tapes, logs⟩ := (Reply.mk.injEq ..).mp (same.look_run_eq command)
  refine ⟨?_, logs, command.run_valid same.left, command.run_valid same.right, tapes⟩
  apply Outcome.related_of_map_eq outcomes
  intro a b answered answered'
  exact Answer.alike_of_sight_eq (command.answer_valid same.left answered)
    (command.answer_valid same.right answered')

end ByteCursor

end BinaryStream
