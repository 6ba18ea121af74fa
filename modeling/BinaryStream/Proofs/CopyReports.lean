import BinaryStream.Proofs.BitCopy
import BinaryStream.Proofs.Reports

/-!
What copies report. A copy goes through pieces of up to 64 bits and reports what their reads and
writes do, up to the piece that fails. All are inductions on what is left to copy.
-/
namespace BinaryStream

open BinaryStream.Action (Tells)

variable {τ ε : Type} [BitSink τ ε]

/-- The error of a source is traced, and that of a sink is not. -/
def CopyError.traced : CopyError ε → List Event
  | .read e => e.traced
  | .write _ => []

theorem copyTo_tells (untraced : Untraced τ ε) (n : Nat) :
    Tells Event.isRefusal CopyError.traced
      (copyTo n : Action (BitSource × τ) (CopyError ε) Unit) := by
  induction n using Nat.strongRecOn with
  | ind n ih =>
    rw [copyTo]
    by_cases done : n = 0
    · rw [if_pos done]
      exact .pure ()
    · rw [if_neg done]
      refine .bind (.mapError (.onFirst (BitSource.readBits_tells _)) fun _ => rfl) fun value => ?_
      refine .bind (.mapError (.onSecond (untraced value _)) fun _ => rfl) fun _ => ?_
      exact ih (n - min n 64) (by omega)

/-! Piece by piece. -/

/-- Reads a piece and writes what was read. -/
def copyPiece (size : Nat) : Action (BitSource × τ) (CopyError ε) Unit := do
  let value ← Action.mapError .read (Action.onFirst (BitSource.readBits size))
  let _ ← Action.mapError .write (Action.onSecond (BitSink.writeBits value size))
  pure ()

theorem copyTo_eq {n : Nat} (more : n ≠ 0) :
    (copyTo n : Action (BitSource × τ) (CopyError ε) Unit) =
      copyPiece (min n 64) >>= fun _ => copyTo (n - min n 64) := by
  rw [copyTo, if_neg more, copyPiece]
  simp only [Action.bind_assoc]
  rfl

theorem copyPiece_apply (size : Nat) (source : BitSource) (sink : τ) :
    copyPiece size (source, sink) = match source.readBits size with
      | ⟨.value value, source, log⟩ =>
        let wrote := BitSink.writeBits value size sink
        ⟨(wrote.outcome.mapError .write).map fun _ => (), (source, wrote.state),
          log ++ wrote.events⟩
      | ⟨.error e, source, log⟩ => ⟨.error (.read e), (source, sink), log⟩
      | ⟨.fault f, source, log⟩ => ⟨.fault f, (source, sink), log⟩ := by
  simp only [copyPiece, Action.bind_apply, Action.mapError, Action.onFirst, Action.onSecond]
  generalize source.readBits size = read
  obtain ⟨outcome, source, log⟩ := read
  cases outcome with
  | value value =>
    simp only [Reply.mapState, Outcome.mapError]
    generalize BitSink.writeBits value size sink = wrote
    obtain ⟨outcome, sink, log'⟩ := wrote
    cases outcome <;> simp [Reply.after, Outcome.map]
  | error e => rfl
  | fault f => rfl

/-- A piece of a copy, as the copy finds the two sides when it comes to it. -/
structure Piece (τ : Type) where
  source : BitSource
  sink : τ
  size : Nat

/-- What the read reports and, of a piece that was read, what the write does. -/
def Piece.events (p : Piece τ) : List Event :=
  let r := p.source.readBits p.size
  r.events ++ match r.outcome with
    | .value value => (BitSink.writeBits value p.size p.sink).events
    | .error _ | .fault _ => []

/-- What can be told of the copy of a piece: a piece that is copied has been passed, and the error
of one that could not be read is the source's. -/
structure Piece.Copied (p : Piece τ) (r : Reply (BitSource × τ) (CopyError ε) Unit) : Prop where
  events_eq : r.events = p.events
  passed : r.outcome = .value () → r.state.1 = p.source.passed p.size
  unread : ∀ e, r.outcome = .error (.read e) → (p.source.readBits p.size).outcome = .error e

theorem Piece.copied (p : Piece τ) : p.Copied (copyPiece p.size (p.source, p.sink)) := by
  have follows := p.source.readBits_follows p.size
  have passes := follows.state_eq
  rw [← follows.outcome_eq] at passes
  rw [copyPiece_apply]
  cases read : p.source.readBits p.size with
  | mk outcome source log =>
  rw [read] at passes
  cases outcome with
  | value value =>
    refine ⟨?_, fun _ => passes, fun e refused => ?_⟩
    · rw [events, read]
    · rw [Outcome.map_eq_error] at refused
      cases outcome : (BitSink.writeBits value p.size p.sink).outcome <;>
        rw [outcome] at refused <;> cases refused
  | error e =>
    refine ⟨?_, fun done => ?_, fun e' refused => ?_⟩
    · rw [events, read, List.append_nil]
    · cases done
    · cases refused
      rw [read]
  | fault f =>
    refine ⟨?_, fun done => ?_, fun e refused => ?_⟩
    · rw [events, read, List.append_nil]
    · cases done
    · cases refused

/-- The pieces that a copy of `n` bits reads, the one that fails included. -/
def copyPieces (n : Nat) (source : BitSource) (sink : τ) : List (Piece τ) :=
  if n = 0 then []
  else
    ⟨source, sink, min n 64⟩ :: match copyPiece (min n 64) (source, sink) with
      | ⟨.value (), (source, sink), _⟩ => copyPieces (n - min n 64) source sink
      | _ => []
termination_by n

/-- The pieces of a copy and its reply. A copy goes through its pieces one by one, each of 64 bits
but the last; it is done after the last one or fails there. -/
structure Piecewise (n : Nat) (source : BitSource) (pieces : List (Piece τ))
    (r : Reply (BitSource × τ) (CopyError ε) Unit) : Prop where
  events_eq : r.events = pieces.flatMap Piece.events
  consecutive : ∀ i p, pieces[i]? = some p →
    p.size = min (n - 64 * i) 64 ∧ p.source = source.passed (64 * i)
  complete : r.outcome = .value () → pieces.length = (n + 63) / 64
  unread : ∀ e, r.outcome = .error (.read e) →
    ∃ p, pieces.getLast? = some p ∧ (p.source.readBits p.size).outcome = .error e

/-- A copy whose first piece fails has no other. -/
theorem Piecewise.ended {n : Nat} {source : BitSource} {sink : τ}
    {r : Reply (BitSource × τ) (CopyError ε) Unit}
    (copied : Piece.Copied ⟨source, sink, min n 64⟩ r) (failed : r.outcome ≠ .value ()) :
    Piecewise n source [⟨source, sink, min n 64⟩] r where
  events_eq := by rw [copied.events_eq, List.flatMap_singleton]
  consecutive i p found := by
    cases i with
    | zero =>
      cases found
      exact ⟨rfl, (BitSource.passed_zero _).symm⟩
    | succ i => cases found
  complete answered := absurd answered failed
  unread e refused := ⟨_, rfl, copied.unread e refused⟩

theorem copyTo_piecewise (n : Nat) (source : BitSource) (sink : τ) :
    Piecewise n source (copyPieces n source sink) (copyTo n (source, sink)) := by
  induction n using Nat.strongRecOn generalizing source sink with
  | ind n ih =>
    by_cases done : n = 0
    · rw [copyTo, copyPieces, if_pos done, if_pos done]
      refine ⟨rfl, fun i p found => ?_, fun _ => ?_, fun e refused => ?_⟩
      · cases found
      · rw [done]
        rfl
      · cases refused
    · have first := Piece.copied (⟨source, sink, min n 64⟩ : Piece τ)
      rw [copyTo_eq done, copyPieces, if_neg done, Action.bind_apply]
      generalize copyPiece (min n 64) (source, sink) = r at first ⊢
      obtain ⟨outcome, ⟨source', sink'⟩, log⟩ := r
      obtain ⟨events, passed, unread⟩ := first
      cases outcome with
      | value _ =>
        obtain rfl := passed rfl
        obtain ⟨others, consecutive, complete, failed⟩ :=
          ih (n - min n 64) (by omega) (source.passed (min n 64)) sink'
        refine ⟨?_, ?_, ?_, ?_⟩
        · rw [List.flatMap_cons, ← others, ← events]
          rfl
        · intro i p found
          cases i with
          | zero =>
            cases found
            exact ⟨rfl, (BitSource.passed_zero _).symm⟩
          | succ i =>
            change (copyPieces (n - min n 64) (source.passed _) sink')[i]? = some p at found
            have more : n - min n 64 ≠ 0 := by
              intro none
              rw [copyPieces, if_pos none] at found
              cases found
            obtain ⟨size, here⟩ := consecutive i p found
            refine ⟨by omega, ?_⟩
            rw [here, BitSource.passed_passed, show min n 64 + 64 * i = 64 * (i + 1) by omega]
        · intro answered
          have length := complete answered
          rw [List.length_cons, length]
          omega
        · intro e refused
          obtain ⟨p, last, unread⟩ := failed e refused
          exact ⟨p, by rw [List.getLast?_cons, last]; rfl, unread⟩
      | error e => exact .ended ⟨events, passed, unread⟩ fun done => by cases done
      | fault f => exact .ended ⟨events, passed, unread⟩ fun done => by cases done

end BinaryStream
