import BinaryStream.BitBuffer
import BinaryStream.ByteCursor.Command
import BinaryStream.ByteRegion

/-!
Errors and their traces. An error is reported where it arises and an action ends there, so what the
steps of an action report of their errors the whole reports of its own: each once, and nothing of an
answer or a fault. Cursors, regions and buffers report nothing else.
-/
namespace BinaryStream

def Event.isRefusal : Event → Bool
  | .refused _ => true
  | _ => false

/-- The trace of an error that is reported where it arises. -/
def AccessError.traced (e : AccessError) : List Event := [.refused e]

/-- What an error tells of an outcome; nothing is told where there is none. -/
def Outcome.told {ε α : Type} (log : ε → List Event) : Outcome ε α → List Event
  | .error e => log e
  | .value _ | .fault _ => []

namespace Action

variable {σ τ ε δ α β : Type} {watched : Event → Bool} {log : ε → List Event}

/-- Of the events that are watched for, the action reports those that its error tells. -/
def Tells (watched : Event → Bool) (log : ε → List Event) (x : Action σ ε α) : Prop :=
  ∀ s, (x s).events.filter watched = (x s).outcome.told log

namespace Tells

theorem pure (a : α) : Tells watched log (Pure.pure a : Action σ ε α) := fun _ => rfl

theorem get : Tells watched log (Action.get : Action σ ε σ) := fun _ => rfl

theorem modify (f : σ → σ) : Tells watched log (Action.modify f : Action σ ε Unit) := fun _ => rfl

theorem fault (f : Fault) : Tells watched log (Action.fault f : Action σ ε α) := fun _ => rfl

theorem ofExcept (x : Except Fault α) : Tells watched log (Action.ofExcept x : Action σ ε α) := by
  intro s
  cases x <;> rfl

variable {x y : Action σ ε α} {f : α → Action σ ε β}

theorem ite {p : Prop} [Decidable p] (holds : Tells watched log x) (fails : Tells watched log y) :
    Tells watched log (if p then x else y) := by
  split
  · exact holds
  · exact fails

/-- What comes after an answer tells as much as if it came alone. -/
theorem bind (first : Tells watched log x) (next : ∀ a, Tells watched log (f a)) :
    Tells watched log (x >>= f) := by
  intro s
  have here := first s
  rw [bind_apply]
  generalize x s = r at here ⊢
  obtain ⟨outcome, t, events⟩ := r
  cases outcome with
  | value a =>
    change events.filter watched = [] at here
    change (events ++ (f a t).events).filter watched = (f a t).outcome.told log
    rw [List.filter_append, here, List.nil_append, next a t]
  | error e => exact here
  | fault f => exact here

theorem map (h : Tells watched log x) (f : α → β) :
    Tells watched log (x >>= fun a => (Pure.pure (f a) : Action σ ε β)) :=
  h.bind fun a => pure (f a)

theorem mapError {log' : δ → List Event} (h : Tells watched log x) {f : ε → δ}
    (same : ∀ e, log' (f e) = log e) : Tells watched log' (x.mapError f) := by
  intro s
  refine (h s).trans ?_
  change _ = ((x s).outcome.mapError f).told log'
  cases (x s).outcome with
  | value a => rfl
  | error e => exact (same e).symm
  | fault f => rfl

theorem onFirst (h : Tells watched log x) :
    Tells watched log (Action.onFirst x : Action (σ × τ) ε α) := fun s => h s.1

theorem onSecond (h : Tells watched log x) :
    Tells watched log (Action.onSecond x : Action (τ × σ) ε α) := fun s => h s.2

end Tells

/-- The action reports its error and nothing else. -/
abbrev Traced (x : Action σ AccessError α) : Prop :=
  Tells (fun _ => true) AccessError.traced x

namespace Traced

theorem events_eq {x : Action σ AccessError α} (h : Traced x) (s : σ) :
    (x s).events = (x s).outcome.told AccessError.traced := by
  rw [← h s, List.filter_eq_self.mpr fun _ _ => rfl]

theorem tells_refusals {x : Action σ AccessError α} (h : Traced x) :
    Tells Event.isRefusal AccessError.traced x := by
  intro s
  rw [h.events_eq]
  cases (x s).outcome <;> rfl

end Traced

theorem Tells.refuse (e : AccessError) : Traced (Action.refuse e : Action σ AccessError α) :=
  fun _ => rfl

theorem Tells.checkRange (offset size length : Nat) :
    Traced (Action.checkRange offset size length : Action σ AccessError Unit) :=
  .ite (.pure ()) (.refuse _)

end Action

open BinaryStream.Action (Traced Tells)

/-! Cursors over bytes. -/

namespace ByteCursor

theorem openAt_traced {σ : Type} (data : List UInt8) (position : Nat) :
    Traced (openAt data position : Action σ AccessError ByteCursor) :=
  .bind (.checkRange _ _ _) fun _ => .pure _

theorem advance_traced (size : Nat) : Traced (advance size) :=
  .bind .get fun _ => .bind (.ofExcept _) fun _ => .modify _

theorem readAt_traced (offset size : Nat) : Traced (readAt offset size) :=
  .bind .get fun _ => .bind (.checkRange _ _ _) fun _ => .ofExcept _

theorem peek_traced (size : Nat) : Traced (peek size) :=
  .bind .get fun _ => readAt_traced _ _

theorem read_traced (size : Nat) : Traced (read size) :=
  (peek_traced size).bind fun _ => (advance_traced size).bind fun _ => .pure _

theorem fillUpToAt_traced (offset : Nat) (buffer : List UInt8) :
    Traced (fillUpToAt offset buffer) :=
  .bind .get fun _ => .bind (.ofExcept _) fun _ => .bind (.ofExcept _) fun _ => .pure _

theorem getAt_traced (l : Layout) (offset : Nat) : Traced (getAt l offset) :=
  (readAt_traced _ _).bind fun _ => .ofExcept _

theorem get_traced (l : Layout) : Traced (get l) :=
  .bind .get fun _ => (getAt_traced l _).bind fun _ => (advance_traced _).bind fun _ => .pure _

theorem getArrayAt_traced (l : Layout) (offset count : Nat) :
    Traced (getArrayAt l offset count) := by
  refine .bind .get fun c => ?_
  cases Size.mul? count l.size with
  | none => exact .refuse _
  | some size => exact (readAt_traced offset size).map _

theorem getStringAt_traced (offset : Nat) : Traced (getStringAt offset) :=
  .bind .get fun _ => (readAt_traced _ _).bind fun _ => .ite (.pure _) (.refuse _)

theorem getLine_traced : Traced getLine :=
  .bind .get fun _ => .ite (.refuse _) <|
    .bind (.ofExcept _) fun _ => (advance_traced _).bind fun _ => .pure _

theorem resolve_traced (range : Range) : Traced (resolve range) := by
  cases range with
  | clamped offset size => exact .bind .get fun _ => .pure _
  | clampedTail offset => exact .bind .get fun _ => .pure _
  | exact offset size => exact .bind .get fun _ => .bind (.checkRange _ _ _) fun _ => .pure _
  | exactTail offset =>
    refine .bind .get fun _ => .bind (.checkRange _ _ _) fun _ => ?_
    exact .bind (.ofExcept _) fun _ => .pure _

theorem Command.run_traced (command : Command) : Traced command.run := by
  cases command with
  | seek position =>
    exact .map (.bind .get fun _ => .bind (.checkRange _ _ _) fun _ => .modify _) _
  | skip size =>
    exact .map (.bind .get fun _ => .bind (.checkRange _ _ _) fun _ => advance_traced size) _
  | skipIf expected =>
    refine .map (.bind .get fun _ => .bind (.ofExcept _) fun _ => .ite ?_ (.pure _)) _
    exact (advance_traced _).map _
  | truncate length => exact .map (.bind .get fun _ => .ite (.refuse _) (.modify _)) _
  | all => exact .map (.bind .get fun _ => .ofExcept _) _
  | readAt offset size => exact (readAt_traced offset size).map _
  | peek size => exact (peek_traced size).map _
  | read size => exact (read_traced size).map _
  | fillAt offset buffer => exact (readAt_traced offset buffer.length).map _
  | fill buffer => exact (read_traced buffer.length).map _
  | readUpToAt offset size => exact .map (.bind .get fun _ => .ofExcept _) _
  | readUpTo size =>
    refine .map (.bind .get fun _ => .bind (.ofExcept _) fun _ => ?_) _
    exact .bind (.ofExcept _) fun _ => .bind (.modify _) fun _ => .pure _
  | fillUpToAt offset buffer => exact (fillUpToAt_traced offset buffer).map _
  | fillUpTo buffer =>
    refine .map (.bind .get fun _ => (fillUpToAt_traced _ buffer).bind fun _ => ?_) _
    exact (advance_traced _).map _
  | getAt l offset => exact (getAt_traced l offset).map _
  | get l => exact (get_traced l).map _
  | getArrayAt l offset count => exact (getArrayAt_traced l offset count).map _
  | getArray l count =>
    refine .map (.bind .get fun _ => (getArrayAt_traced l _ count).bind fun _ => ?_) _
    exact .bind (.ofExcept _) fun _ => (advance_traced _).map _
  | getStringAt offset => exact (getStringAt_traced offset).map _
  | getString =>
    refine .map (.bind .get fun _ => (getStringAt_traced _).bind fun _ => ?_) _
    exact (advance_traced _).map _
  | getLine => exact getLine_traced.map _
  | view range =>
    refine .map ((resolve_traced range).bind fun _ => .bind .get fun _ => ?_) _
    exact .bind (.ofExcept _) fun _ => .pure _
  | bitView range =>
    refine .map ((resolve_traced range).bind fun _ => .bind .get fun _ => ?_) _
    exact .bind (.ofExcept _) fun _ => .bind (.ofExcept _) fun _ => .pure _

end ByteCursor

/-! Cursors over bits. -/

namespace BitCursor

theorem openAt_traced {σ : Type} (data : List UInt8) (position : Nat) :
    Traced (openAt data position : Action σ AccessError BitCursor) :=
  .bind (.ofExcept _) fun _ => .bind (.checkRange _ _ _) fun _ => .pure _

theorem advance_traced (bits : Nat) : Traced (advance bits) :=
  .bind .get fun _ => .bind (.ofExcept _) fun _ => .modify _

theorem skip_traced (bits : Nat) : Traced (skip bits) :=
  .bind .get fun _ => .bind (.checkRange _ _ _) fun _ => advance_traced bits

theorem readAt_traced (position width : Nat) : Traced (readAt position width) :=
  .ite (.fault _) (.bind .get fun _ => .bind (.checkRange _ _ _) fun _ => .ofExcept _)

theorem peek_traced (width : Nat) : Traced (peek width) :=
  .bind .get fun _ => readAt_traced _ width

theorem read_traced (width : Nat) : Traced (read width) :=
  (peek_traced width).bind fun _ => (advance_traced width).map _

theorem Command.run_traced (command : Command) : Traced command.run := by
  cases command with
  | seek position =>
    exact .map (.bind .get fun _ => .bind (.checkRange _ _ _) fun _ => .modify _) _
  | skip bits => exact (skip_traced bits).map _
  | truncate length => exact .map (.bind .get fun _ => .ite (.refuse _) (.modify _)) _
  | readAt position width => exact (readAt_traced position width).map _
  | peek width => exact (peek_traced width).map _
  | read width => exact (read_traced width).map _
  | readBit => exact .map ((read_traced 1).map _) _
  | tell => exact .map (.bind .get fun _ => .pure _) _

end BitCursor

/-! Regions and buffers. -/

theorem ByteRegion.writeAt_traced (offset : Nat) (payload : List UInt8) :
    Traced (writeAt offset payload) :=
  .bind .get fun _ => .bind (.checkRange _ _ _) fun _ => .bind (.ofExcept _) fun _ => .modify _

theorem ByteRegion.write_traced (payload : List UInt8) : Traced (write payload) :=
  .bind .get fun _ => (writeAt_traced _ payload).bind fun _ => .modify _

theorem ByteRegion.Command.run_traced (command : Command) : Traced command.run := by
  cases command with
  | write payload => exact write_traced payload
  | writeAt offset payload => exact writeAt_traced offset payload
  | put l value => exact write_traced (l.encode value)
  | putAt l offset value => exact writeAt_traced offset (l.encode value)

/-- A write to a buffer has no error, whatever would be told of one. -/
theorem BitBuffer.writeBits_tells {ε : Type} (watched : Event → Bool) (log : ε → List Event)
    (value : UInt64) (count : Nat) : Tells watched log (writeBits value count) :=
  .ite (.fault _) (.bind .get fun _ => .bind (.ofExcept _) fun _ => .modify _)

theorem BitBuffer.Command.run_traced (command : Command) : Traced command.run := by
  cases command with
  | writeBit bit => exact writeBits_tells _ _ bit.toUInt64 1
  | writeBits value count => exact writeBits_tells _ _ value count
  | truncate bits => exact .bind .get fun _ => .ite (.refuse _) (.modify _)
  | reset => exact .modify _

end BinaryStream
