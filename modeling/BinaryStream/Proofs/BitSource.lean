import BinaryStream.BitSource
import BinaryStream.Proofs.BitCursor.Window

/-!
Whatever is put around a cursor, it answers as the cursor does, and what the cursor passes is passed
in every total; a request that is not answered passes nothing. What is reported on the way differs
from source to source and is not looked at here.
-/
namespace BinaryStream

@[simp] theorem Reply.observed_outcome {σ α : Type} (event : Except AccessError α → Event)
    (r : Reply σ AccessError α) : (r.observed event).outcome = r.outcome := by
  obtain ⟨outcome, s, log⟩ := r
  cases outcome <;> rfl

@[simp] theorem Reply.observed_state {σ α : Type} (event : Except AccessError α → Event)
    (r : Reply σ AccessError α) : (r.observed event).state = r.state := by
  obtain ⟨outcome, s, log⟩ := r
  cases outcome <;> rfl

/-- What a request for `n` bits passes: all of them if it is answered, and none otherwise. -/
def Outcome.gain {ε α : Type} (n : Nat) : Outcome ε α → Nat
  | .value _ => n
  | .error _ | .fault _ => 0

/-! Cursors, whatever their fields are. -/

namespace BitCursor

variable {c : BitCursor} {α β : Type} {n : Nat}

/-- The reply of a cursor that passes `n` bits or none. -/
structure Passes (c : BitCursor) (n : Nat) (r : Reply BitCursor AccessError α) : Prop where
  state_eq : r.state = { c with position := c.position + r.outcome.gain n }
  word : c.position < Size.limit → r.state.position < Size.limit

theorem Passes.of_state_eq {r : Reply BitCursor AccessError α} (same : r.state = c) :
    Passes c 0 r := by
  obtain ⟨outcome, s, log⟩ := r
  cases same
  cases outcome <;> exact ⟨rfl, id⟩

/-- What looks before does not pass anything. -/
theorem Passes.bind {x : Action BitCursor AccessError α} {f : α → Action BitCursor AccessError β}
    (look : (x c).state = c) (next : ∀ a, Passes c n (f a c)) : Passes c n ((x >>= f) c) := by
  rw [Action.bind_apply]
  generalize x c = r at look ⊢
  obtain ⟨outcome, s, log⟩ := r
  cases look
  cases outcome with
  | value a => exact ⟨(next a).state_eq, (next a).word⟩
  | error e => exact ⟨rfl, id⟩
  | fault f => exact ⟨rfl, id⟩

theorem Passes.map {x : Action BitCursor AccessError α} (f : α → β) (h : Passes c n (x c)) :
    Passes c n ((x >>= fun a => (Pure.pure (f a) : Action BitCursor AccessError β)) c) := by
  rw [Action.bind_pure_apply]
  refine ⟨h.state_eq.trans ?_, h.word⟩
  cases (x c).outcome <;> rfl

theorem advance_passes (c : BitCursor) (n : Nat) : Passes c n (advance n c) := by
  cases moved : Size.add? c.position n with
  | some position =>
    obtain ⟨word, rfl⟩ := Size.add?_eq_some_iff.mp moved
    simp only [advance, Action.get_bind_apply, Size.sum_of_lt word]
    exact ⟨rfl, fun _ => word⟩
  | none =>
    simp only [advance, Action.get_bind_apply, Size.sum, moved]
    exact ⟨rfl, id⟩

theorem state_checkRange (offset size length : Nat) (c : BitCursor) :
    (Action.checkRange offset size length c).state = c := by
  rw [Action.checkRange]
  split <;> rfl

theorem state_readAt (position width : Nat) (c : BitCursor) :
    (readAt position width c).state = c := by
  rw [readAt]
  split
  · rfl
  · rw [Action.get_bind_apply, Action.checkRange]
    split <;> rfl

theorem peek_passes (c : BitCursor) (n : Nat) : Passes c 0 (peek n c) :=
  .of_state_eq (state_readAt c.position n c)

theorem read_passes (c : BitCursor) (n : Nat) : Passes c n (read n c) :=
  .bind (state_readAt c.position n c) fun value => .map (fun _ => value) (advance_passes c n)

theorem skip_passes (c : BitCursor) (n : Nat) : Passes c n (skip n c) :=
  .bind rfl fun _ => .bind (state_checkRange _ _ _ c) fun _ => advance_passes c n

end BitCursor

namespace BitSource

/-- The source with `n` more bits behind it: its cursor has moved and its totals have grown. -/
def passed (n : Nat) : BitSource → BitSource
  | .cursor c => .cursor { c with position := c.position + n }
  | .logged inner => .logged (inner.passed n)
  | .counted prints count inner => .counted prints (count + n) (inner.passed n)

variable {s : BitSource}

@[simp] theorem base_passed (n : Nat) (s : BitSource) :
    (s.passed n).base = { s.base with position := s.base.position + n } := by
  induction s with
  | cursor c => rfl
  | logged inner ih => exact ih
  | counted prints count inner ih => exact ih

@[simp] theorem passed_zero (s : BitSource) : s.passed 0 = s := by
  induction s with
  | cursor c => rfl
  | logged inner ih => simp [passed, ih]
  | counted prints count inner ih => simp [passed, ih]

@[simp] theorem passed_passed (m n : Nat) (s : BitSource) :
    (s.passed m).passed n = s.passed (m + n) := by
  induction s with
  | cursor c => simp [passed, Nat.add_assoc]
  | logged inner ih => simp [passed, ih]
  | counted prints count inner ih => simp [passed, ih, Nat.add_assoc]

theorem framed_passed (h : s.base.Framed) {n : Nat} (room : n ≤ s.base.remaining) :
    (s.passed n).base.Framed := by
  have := h.position_le
  rw [base_passed]
  apply h.moved
  simp only [BitCursor.remaining] at room
  omega

theorem remaining_passed (n : Nat) (s : BitSource) :
    (s.passed n).base.remaining = s.base.remaining - n := by
  simp only [base_passed, BitCursor.remaining]
  omega

/-! A request of a source is the request of its cursor. -/

section Follows

variable {α : Type} {n : Nat}

/-- The reply `r'` of a source that answers as its cursor does in `r` and passes what that
passes. -/
structure Follows (s : BitSource) (n : Nat) (r : Reply BitCursor AccessError α)
    (r' : Reply BitSource AccessError α) : Prop where
  outcome_eq : r'.outcome = r.outcome
  passes : BitCursor.Passes s.base n r
  state_eq : r'.state = s.passed (r.outcome.gain n)

theorem Follows.cursor {c : BitCursor} {r : Reply BitCursor AccessError α} (h : c.Passes n r) :
    Follows (.cursor c) n r (r.mapState .cursor) :=
  ⟨rfl, h, congrArg BitSource.cursor h.state_eq⟩

theorem Follows.logged {inner : BitSource} {r : Reply BitCursor AccessError α}
    {r' r'' : Reply BitSource AccessError α} (h : Follows inner n r r')
    (outcome : r''.outcome = r'.outcome) (state : r''.state = .logged r'.state) :
    Follows (.logged inner) n r r'' := by
  refine ⟨outcome.trans h.outcome_eq, h.passes, ?_⟩
  rw [state, h.state_eq, passed]

theorem Follows.counted {prints : Bool} {count : Nat} {inner : BitSource}
    {r : Reply BitCursor AccessError α} {r' r'' : Reply BitSource AccessError α}
    (h : Follows inner n r r') (outcome : r''.outcome = r'.outcome)
    (state : r''.state = .counted prints (count + r'.outcome.gain n) r'.state) :
    Follows (.counted prints count inner) n r r'' := by
  refine ⟨outcome.trans h.outcome_eq, h.passes, ?_⟩
  rw [state, h.state_eq, h.outcome_eq, passed]

theorem readBits_follows (s : BitSource) (n : Nat) :
    Follows s n (BitCursor.read n s.base) (s.readBits n) := by
  induction s with
  | cursor c => exact .cursor (c.read_passes n)
  | logged inner ih =>
    exact ih.logged (Reply.observed_outcome _ _) (by simp [readBits, Reply.mapState])
  | counted prints count inner ih =>
    have ran : ((counted prints count inner).readBits n).outcome = (inner.readBits n).outcome ∧
        ((counted prints count inner).readBits n).state = .counted prints
          (count + (inner.readBits n).outcome.gain n) (inner.readBits n).state := by
      rw [readBits]
      obtain ⟨outcome, next, log⟩ := inner.readBits n
      cases outcome <;> exact ⟨rfl, rfl⟩
    exact ih.counted ran.1 ran.2

theorem peekBits_follows (s : BitSource) (n : Nat) :
    Follows s 0 (BitCursor.peek n s.base) (s.peekBits n) := by
  induction s with
  | cursor c => exact .cursor (c.peek_passes n)
  | logged inner ih =>
    exact ih.logged (Reply.observed_outcome _ _) (by simp [peekBits, Reply.mapState])
  | counted prints count inner ih =>
    have kept : ((counted prints count inner).peekBits n).state = .counted prints
        (count + (inner.peekBits n).outcome.gain 0) (inner.peekBits n).state := by
      rw [peekBits]
      obtain ⟨outcome, next, log⟩ := inner.peekBits n
      cases outcome <;> rfl
    exact ih.counted rfl kept

theorem skipBits_follows (s : BitSource) (n : Nat) :
    Follows s n (BitCursor.skip n s.base) (s.skipBits n) := by
  induction s with
  | cursor c => exact .cursor (c.skip_passes n)
  | logged inner ih => exact ih.logged rfl rfl
  | counted prints count inner ih =>
    have ran : ((counted prints count inner).skipBits n).outcome = (inner.skipBits n).outcome ∧
        ((counted prints count inner).skipBits n).state = .counted prints
          (count + (inner.skipBits n).outcome.gain n) (inner.skipBits n).state := by
      rw [skipBits]
      obtain ⟨outcome, next, log⟩ := inner.skipBits n
      cases outcome <;> exact ⟨rfl, rfl⟩
    exact ih.counted ran.1 ran.2

end Follows

theorem readBits_of_room (h : s.base.Framed) {n : Nat} (narrow : n ≤ 64)
    (room : n ≤ s.base.remaining) :
    ∃ log, s.readBits n =
      ⟨.value (UInt64.ofNat (numeral (s.base.next n))), s.passed n, log⟩ := by
  have inside : s.base.position + n ≤ s.base.length := by
    have := h.position_le
    simp only [BitCursor.remaining] at room
    omega
  have read := h.read_apply n
  rw [if_neg (Nat.not_lt.mpr narrow), if_pos inside] at read
  obtain ⟨outcome, -, state⟩ := s.readBits_follows n
  rw [read] at outcome state
  exact ⟨_, (Reply.mk.injEq ..).mpr ⟨outcome, state, rfl⟩⟩

theorem readBits_of_no_room (h : s.base.Framed) {n : Nat} (narrow : n ≤ 64)
    (short : s.base.remaining < n) :
    ∃ log, s.readBits n =
      ⟨.error (.outOfRange s.base.position n s.base.length), s, log⟩ := by
  have outside : ¬ s.base.position + n ≤ s.base.length := by
    simp only [BitCursor.remaining] at short
    omega
  have read := h.read_apply n
  rw [if_neg (Nat.not_lt.mpr narrow), if_neg outside] at read
  obtain ⟨outcome, -, state⟩ := s.readBits_follows n
  rw [read] at outcome state
  exact ⟨_, (Reply.mk.injEq ..).mpr ⟨outcome, state.trans (passed_zero s), rfl⟩⟩

end BitSource

end BinaryStream
