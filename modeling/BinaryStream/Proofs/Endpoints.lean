import BinaryStream.Proofs.CopyReports
import BinaryStream.Proofs.Run

/-!
Event logs of whole runs. Endpoints are opened, wrapped and asked one after the other; what is
reported on the way is written down in one log. The errors in the log are those that were returned,
in their order.
-/
namespace BinaryStream

open BinaryStream.Action (Tells Traced)

/-- What a program reads from or writes to. Sinks other than buffers are those of one type. -/
inductive Endpoint (τ : Type) where
  | bytes (c : ByteCursor)
  | bits (s : BitSource)
  | region (r : ByteRegion)
  | buffer (b : BitBuffer)
  | sink (t : τ)

/-- Why a request fails: an error of a cursor, a region or a buffer, which for a copy is the cause
of its own, or an error of a sink. -/
inductive Failure (ε : Type) where
  | access (e : AccessError)
  | sink (e : ε)

def Failure.traced {ε : Type} : Failure ε → List Event
  | .access e => e.traced
  | .sink _ => []

def CopyError.failure {δ ε : Type} (ofSink : δ → ε) : CopyError δ → Failure ε
  | .read e => .access e
  | .write e => .sink (ofSink e)

/-- Who is asked for a copy. -/
inductive Side where
  | source
  | sink

def copyBetween {τ ε : Type} [BitSink τ ε] (n : Nat) :
    Side → Action (BitSource × τ) (CopyError ε) Unit
  | .source => copyTo n
  | .sink => fun p => (copyFrom n p.swap).mapState Prod.swap

section Copies

variable {τ ε : Type} [BitSink τ ε]

theorem copyBetween_eq (n : Nat) (side : Side) :
    (copyBetween n side : Action (BitSource × τ) (CopyError ε) Unit) = copyTo n := by
  cases side with
  | source => rfl
  | sink =>
    funext p
    rw [copyBetween, copyFrom_eq]
    rfl

theorem copyBetween_tells (untraced : Untraced τ ε) (n : Nat) (side : Side) :
    Tells Event.isRefusal CopyError.traced
      (copyBetween n side : Action (BitSource × τ) (CopyError ε) Unit) := by
  rw [copyBetween_eq]
  exact copyTo_tells untraced n

end Copies

/-- Endpoints are counted in the order of their opening; a request to one that is not there, or that
is of another kind, is not made. -/
inductive Request (τ : Type) where
  | openBytes (data : List UInt8) (position : Option Nat)
  | openBits (data : List UInt8) (position : Option Nat)
  | openRegion (memory : List UInt8)
  | openBuffer
  | openSink (t : τ)
  /-- Puts a log around a source. -/
  | log (i : Nat)
  /-- Puts a count around a source. -/
  | count (prints : Bool) (i : Nat)
  /-- Takes off what was put on last. -/
  | unwrap (i : Nat)
  | bytes (i : Nat) (command : ByteCursor.Command)
  /-- Reads a scalar through a log, at the position or at an offset. -/
  | scalar (i : Nat) (layout : Layout) (offset : Option Nat)
  /-- Asks a source that is a cursor and nothing around it. -/
  | bits (i : Nat) (command : BitCursor.Command)
  | source (i : Nat) (command : BitSource.Command)
  | region (i : Nat) (command : ByteRegion.Command)
  | buffer (i : Nat) (command : BitBuffer.Command)
  | write (i : Nat) (value : UInt64) (n : Nat)
  | copy (side : Side) (i j n : Nat)

namespace Request

variable {τ ε : Type}

/-- A new endpoint, unless its opening is refused. -/
def opening (x : Action (List (Endpoint τ)) AccessError (Endpoint τ)) :
    Action (List (Endpoint τ)) (Failure ε) Unit := do
  let endpoint ← x.mapError .access
  Action.modify (· ++ [endpoint])

/-- Asks an endpoint, or two of them, whose state is then put back. -/
def ask {σ δ α : Type} (put : σ → List (Endpoint τ) → List (Endpoint τ)) (failure : δ → Failure ε)
    (x : Action σ δ α) (state : σ) : Action (List (Endpoint τ)) (Failure ε) α := fun s =>
  let r := x.mapError failure state
  ⟨r.outcome, put r.state s, r.events⟩

/-- The views among the answers of a cursor are endpoints. -/
def views : ByteCursor.Answer → List (Endpoint τ)
  | .cursor c => [.bytes c]
  | .bits c => [.bits (.cursor c)]
  | _ => []

/-- Changes a source without asking it. -/
def rewrap (i : Nat) (wrap : BitSource → BitSource) (s : List (Endpoint τ)) : List (Endpoint τ) :=
  match s[i]? with
  | some (.bits inner) => s.set i (.bits (wrap inner))
  | _ => s

def run [BitSink τ ε] : Request τ → Action (List (Endpoint τ)) (Failure ε) Unit
  | .openBytes data none => opening (pure (.bytes (.ofBytes data)))
  | .openBytes data (some position) => opening do
    let c ← ByteCursor.openAt data position
    pure (.bytes c)
  | .openBits data none => opening do
    let c ← Action.ofExcept (BitCursor.ofBytes data)
    pure (.bits (.cursor c))
  | .openBits data (some position) => opening do
    let c ← BitCursor.openAt data position
    pure (.bits (.cursor c))
  | .openRegion memory => opening (pure (.region (.ofMemory memory)))
  | .openBuffer => opening (pure (.buffer .empty))
  | .openSink t => opening (pure (.sink t))
  | .log i => Action.modify (rewrap i .logged)
  | .count prints i => Action.modify (rewrap i (.counted prints 0))
  | .unwrap i => Action.modify (rewrap i fun s => s.inner?.getD s)
  | .bytes i command => do
    match (← Action.get)[i]? with
    | some (.bytes c) =>
      let answer ← ask (fun c s => s.set i (.bytes c)) .access command.run c
      Action.modify (· ++ views answer)
    | _ => pure ()
  | .scalar i layout offset => do
    match (← Action.get)[i]? with
    | some (.bytes c) =>
      let _ ← ask (fun c s => s.set i (.bytes c.cursor)) .access
        (LoggedCursor.scalar layout offset) ⟨c⟩
    | _ => pure ()
  | .bits i command => do
    match (← Action.get)[i]? with
    | some (.bits (.cursor c)) =>
      let _ ← ask (fun c s => s.set i (.bits (.cursor c))) .access command.run c
    | _ => pure ()
  | .source i command => do
    match (← Action.get)[i]? with
    | some (.bits c) =>
      let _ ← ask (fun c s => s.set i (.bits c)) .access command.run c
    | _ => pure ()
  | .region i command => do
    match (← Action.get)[i]? with
    | some (.region r) => ask (fun r s => s.set i (.region r)) .access command.run r
    | _ => pure ()
  | .buffer i command => do
    match (← Action.get)[i]? with
    | some (.buffer b) => ask (fun b s => s.set i (.buffer b)) .access command.run b
    | _ => pure ()
  | .write i value n => do
    match (← Action.get)[i]? with
    | some (.sink t) =>
      let _ ← ask (fun t s => s.set i (.sink t)) .sink (BitSink.writeBits value n) t
    | _ => pure ()
  | .copy side i j n => do
    let s ← Action.get
    match s[i]?, s[j]? with
    | some (.bits c), some (.sink t) =>
      ask (fun p s => (s.set i (.bits p.1)).set j (.sink p.2)) (CopyError.failure id)
        (copyBetween n side) (c, t)
    | some (.bits c), some (.buffer b) =>
      ask (fun p s => (s.set i (.bits p.1)).set j (.buffer p.2)) (CopyError.failure Empty.elim)
        (copyBetween n side) (c, b)
    | _, _ => pure ()

theorem opening_tells {x : Action (List (Endpoint τ)) AccessError (Endpoint τ)}
    (traced : Traced x) :
    Tells Event.isRefusal Failure.traced
      (opening x : Action (List (Endpoint τ)) (Failure ε) Unit) :=
  .bind (.mapError traced.tells_refusals fun _ => rfl) fun _ => .modify _

theorem ask_tells {σ δ α : Type} {put : σ → List (Endpoint τ) → List (Endpoint τ)}
    {failure : δ → Failure ε} {log : δ → List Event} {x : Action σ δ α}
    (tells : Tells Event.isRefusal log x) (same : ∀ e, (failure e).traced = log e) (state : σ) :
    Tells Event.isRefusal Failure.traced (ask put failure x state) :=
  fun _ => tells.mapError same state

theorem run_tells [BitSink τ ε] (untraced : Untraced τ ε) (request : Request τ) :
    Tells Event.isRefusal Failure.traced
      (request.run : Action (List (Endpoint τ)) (Failure ε) Unit) := by
  cases request with
  | openBytes data position =>
    cases position with
    | none => exact opening_tells (.pure _)
    | some position => exact opening_tells ((ByteCursor.openAt_traced data position).map _)
  | openBits data position =>
    cases position with
    | none => exact opening_tells (.map (.ofExcept _) _)
    | some position => exact opening_tells ((BitCursor.openAt_traced data position).map _)
  | openRegion memory => exact opening_tells (.pure _)
  | openBuffer => exact opening_tells (.pure _)
  | openSink t => exact opening_tells (.pure _)
  | log i => exact .modify _
  | count prints i => exact .modify _
  | unwrap i => exact .modify _
  | bytes i command =>
    refine .bind .get fun s => ?_
    split
    · exact (ask_tells command.run_traced.tells_refusals (fun _ => rfl) _).bind fun _ => .modify _
    · exact .pure ()
  | scalar i layout offset =>
    refine .bind .get fun s => ?_
    split
    · exact (ask_tells (LoggedCursor.scalar_tells layout offset) (fun _ => rfl) _).map _
    · exact .pure ()
  | bits i command =>
    refine .bind .get fun s => ?_
    split
    · exact (ask_tells command.run_traced.tells_refusals (fun _ => rfl) _).map _
    · exact .pure ()
  | source i command =>
    refine .bind .get fun s => ?_
    split
    · exact (ask_tells command.run_tells (fun _ => rfl) _).map _
    · exact .pure ()
  | region i command =>
    refine .bind .get fun s => ?_
    split
    · exact ask_tells command.run_traced.tells_refusals (fun _ => rfl) _
    · exact .pure ()
  | buffer i command =>
    refine .bind .get fun s => ?_
    split
    · exact ask_tells command.run_traced.tells_refusals (fun _ => rfl) _
    · exact .pure ()
  | write i value n =>
    refine .bind .get fun s => ?_
    split
    · exact (ask_tells (untraced value n) (fun _ => rfl) _).map _
    · exact .pure ()
  | copy side i j n =>
    refine .bind .get fun s => ?_
    split
    · exact ask_tells (copyBetween_tells untraced n side) (fun e => by cases e <;> rfl) _
    · exact ask_tells (copyBetween_tells BitBuffer.untraced n side) (fun e => by cases e <;> rfl) _
    · exact .pure ()

end Request

/-- Let sinks trace no errors of their own, as buffers and counts around such sinks do not. In the
log of any run, from the opening of the first endpoint on, the traces are the errors that were
returned, in their order: one for each request that fails, with what the error says, a copy that
could not read included, and none for any other.

A cursor, a region or a buffer reports nothing else. What is put around a cursor adds, in the order
in which the result passes it, an event with the arguments and the result for a log, and one with
the total after it for a count that prints, but only of what was read or skipped; a skip is logged
before it is made. A scalar is logged after its trace, and a write that was taken is counted after
what the sink inside reports. A copy reports what is reported of its pieces. -/
theorem requests_reported {τ ε : Type} [BitSink τ ε] (untraced : Untraced τ ε) :
    (Untraced BitBuffer Empty ∧ Untraced (CountedSink τ) ε) ∧
    (∀ requests : List (Request τ),
      let replies : List (Reply _ (Failure ε) Unit) := Action.replies Request.run requests []
      (∀ r ∈ replies, r.events.filter Event.isRefusal = r.outcome.told Failure.traced) ∧
      (replies.flatMap (·.events)).filter Event.isRefusal =
        replies.flatMap (·.outcome.told Failure.traced)) ∧
    ((∀ (command : ByteCursor.Command) c,
        (command.run c).events = (command.run c).outcome.told AccessError.traced) ∧
      (∀ (command : BitCursor.Command) c,
        (command.run c).events = (command.run c).outcome.told AccessError.traced) ∧
      (∀ (command : ByteRegion.Command) r,
        (command.run r).events = (command.run r).outcome.told AccessError.traced) ∧
      ∀ (command : BitBuffer.Command) b,
        (command.run b).events = (command.run b).outcome.told AccessError.traced) ∧
    (∀ (s : BitSource) (n : Nat),
      BitSource.Reports [] (Layer.afterRead n) (s.readBits n) ∧
      BitSource.Reports [] (Layer.afterPeek n) (s.peekBits n) ∧
      BitSource.Reports (s.layers.flatMap (Layer.beforeSkip n)) (Layer.afterSkip n)
        (s.skipBits n)) ∧
    (∀ (s : LoggedCursor) (l : Layout) (offset : Option Nat),
      let r := LoggedCursor.scalar l offset s
      r.events = r.outcome.told AccessError.traced ++
        r.outcome.noted fun result => [.scalar l offset result]) ∧
    (∀ (s : CountedSink τ) (value : UInt64) (n : Nat),
      let r := BitSink.writeBits value n s
      r.events = (BitSink.writeBits value n s.inner).events ++ CountedSink.afterWrite value n r) ∧
    ∀ (source : BitSource) (sink : τ) (n : Nat) (side : Side),
      Piecewise n source (copyPieces n source sink) (copyBetween n side (source, sink)) := by
  refine ⟨⟨BitBuffer.untraced, CountedSink.untraced untraced⟩, ?_, ⟨?_, ?_, ?_, ?_⟩, ?_, ?_, ?_, ?_⟩
  · intro requests replies
    have each : ∀ r ∈ replies, r.events.filter Event.isRefusal = r.outcome.told Failure.traced :=
      Action.replies_forall (fun request => request.run_tells untraced) requests []
    refine ⟨each, ?_⟩
    rw [List.filter_flatMap, List.flatMap_def, List.flatMap_def, List.map_congr_left each]
  · exact fun command => command.run_traced.events_eq
  · exact fun command => command.run_traced.events_eq
  · exact fun command => command.run_traced.events_eq
  · exact fun command => command.run_traced.events_eq
  · exact fun s n => ⟨s.readBits_reports n, s.peekBits_reports n, s.skipBits_reports n⟩
  · exact fun s l offset => LoggedCursor.scalar_events l offset s
  · exact fun s value n => CountedSink.writeBits_events value n s
  · intro source sink n side
    rw [copyBetween_eq]
    exact copyTo_piecewise n source sink

/-- A cursor that is not opened, a skip that fails behind a count and a log, a scalar that is not
there, and a sink whose own error is not traced; and a copy that ends with its first piece. -/
theorem requests_reported_wrapped :
    let u32 : Layout := ⟨.big, .unsigned .w32⟩
    let sink : CountedSink BoundedBitBuffer := .ofSink ⟨.empty, 4⟩ true
    let requests : List (Request (CountedSink BoundedBitBuffer)) :=
      [.openBytes [1, 2, 3] (some 7), .openBytes [1, 2, 3] none, .openBits [0xA5] none,
        .count true 1, .log 1, .source 1 (.skipBits 3), .source 1 (.skipBits 9), .scalar 0 u32 none,
        .bytes 0 (.readUpTo 5), .openSink sink, .write 2 1 9]
    let replies : List (Reply _ (Failure AccessError) Unit) :=
      Action.replies Request.run requests []
    let source : BitSource := .logged (.counted true 3 (.cursor ⟨[0xA5], 0, 8, 3⟩))
    Untraced (CountedSink BoundedBitBuffer) AccessError ∧
    replies.flatMap (·.outcome.told Failure.traced) =
      [.refused (.outOfRange 7 0 3), .refused (.outOfRange 3 9 8), .refused (.outOfRange 0 4 3)] ∧
    replies.flatMap (·.events) =
      [.refused (.outOfRange 7 0 3), .skipBits 3, .countedSkip 3 3, .skipBits 9,
        .refused (.outOfRange 3 9 8), .refused (.outOfRange 0 4 3),
        .scalar u32 none (.error (.outOfRange 0 4 3))] ∧
    (copyBetween 70 .sink (source, sink)).events =
      [.refused (.outOfRange 3 64 8), .readBits 64 (.error (.outOfRange 3 64 8))] := by
  intro u32 sink requests replies source
  have untraced := CountedSink.untraced BoundedBitBuffer.untraced
  obtain ⟨-, runs, -, -, -, -, copies⟩ := requests_reported untraced
  have log : replies.flatMap (·.events) =
      [.refused (.outOfRange 7 0 3), .skipBits 3, .countedSkip 3 3, .skipBits 9,
        .refused (.outOfRange 3 9 8), .refused (.outOfRange 0 4 3),
        .scalar u32 none (.error (.outOfRange 0 4 3))] := by decide
  have traces := (runs requests).2.symm.trans (congrArg (List.filter Event.isRefusal) log)
  have piece : copyPieces 70 source sink = [⟨source, sink, 64⟩] := by
    rw [copyPieces]
    rfl
  refine ⟨untraced, traces, log, ?_⟩
  rw [(copies source sink 70 .sink).events_eq, piece]
  rfl

end BinaryStream
