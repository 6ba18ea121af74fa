import BinaryStream.ByteCursor.Logged
import BinaryStream.Proofs.BitSink
import BinaryStream.Proofs.BitSource
import BinaryStream.Proofs.Tracing

/-!
What wrappers report. A source is a cursor in layers, each of which adds at most one event to a
request: a log before a skip and after a read, a count after what was read or skipped, with its
total then. Answers pass through the layers from the inside out, so their events come in this order,
after the trace of an error. A count around a sink does the same for a write.
-/
namespace BinaryStream

open BinaryStream.Action (Tells Traced)

/-- What is said of a result; a fault has none. -/
def Outcome.noted {α : Type} (note : Except AccessError α → List Event) :
    Outcome AccessError α → List Event
  | .value a => note (.ok a)
  | .error e => note (.error e)
  | .fault _ => []

theorem Outcome.noted_append {α : Type} (f g : Except AccessError α → List Event)
    (o : Outcome AccessError α) :
    o.noted f ++ o.noted g = o.noted fun result => f result ++ g result := by
  cases o <;> rfl

theorem Outcome.filter_noted {α : Type} {p : Event → Bool} {f : Except AccessError α → List Event}
    (none : ∀ result, (f result).filter p = []) (o : Outcome AccessError α) :
    (o.noted f).filter p = [] := by
  cases o with
  | value a => exact none (.ok a)
  | error e => exact none (.error e)
  | fault f => rfl

theorem Outcome.filter_told {α : Type} (o : Outcome AccessError α) :
    (o.told AccessError.traced).filter Event.isRefusal = o.told AccessError.traced := by
  cases o <;> rfl

theorem Reply.observed_events {σ α : Type} (event : Except AccessError α → Event)
    (r : Reply σ AccessError α) :
    (r.observed event).events = r.events ++ r.outcome.noted fun result => [event result] := by
  obtain ⟨outcome, s, log⟩ := r
  cases outcome <;> simp [Reply.observed, Outcome.noted]

/-! Sources. -/

/-- What is put around a cursor, by what it adds to the events of a request. -/
inductive Layer where
  | logs
  | counts (prints : Bool) (total : Nat)

namespace Layer

/-- The layer's event of a read, when its total is the one after it. -/
def afterRead (n : Nat) (result : Except AccessError UInt64) : Layer → List Event
  | .logs => [.readBits n result]
  | .counts prints total =>
    match prints, result with
    | true, .ok value => [.countedRead n value total]
    | _, _ => []

def afterPeek (n : Nat) (result : Except AccessError UInt64) : Layer → List Event
  | .logs => [.peekBits n result]
  | .counts _ _ => []

def beforeSkip (n : Nat) : Layer → List Event
  | .logs => [.skipBits n]
  | .counts _ _ => []

def afterSkip (n : Nat) (result : Except AccessError Unit) : Layer → List Event
  | .logs => []
  | .counts prints total =>
    match prints, result with
    | true, .ok _ => [.countedSkip n total]
    | _, _ => []

/-! A layer traces no error. -/

theorem filter_afterRead (n : Nat) (result : Except AccessError UInt64) (layer : Layer) :
    (layer.afterRead n result).filter Event.isRefusal = [] := by
  cases layer with
  | logs => rfl
  | counts prints total => cases prints <;> cases result <;> rfl

theorem filter_afterPeek (n : Nat) (result : Except AccessError UInt64) (layer : Layer) :
    (layer.afterPeek n result).filter Event.isRefusal = [] := by
  cases layer <;> rfl

theorem filter_beforeSkip (n : Nat) (layer : Layer) :
    (layer.beforeSkip n).filter Event.isRefusal = [] := by
  cases layer <;> rfl

theorem filter_afterSkip (n : Nat) (result : Except AccessError Unit) (layer : Layer) :
    (layer.afterSkip n result).filter Event.isRefusal = [] := by
  cases layer with
  | logs => rfl
  | counts prints total => cases prints <;> cases result <;> rfl

end Layer

namespace BitSource

/-- The layers of a source, the outermost first. -/
def layers : BitSource → List Layer
  | .cursor _ => []
  | .logged inner => .logs :: inner.layers
  | .counted prints count inner => .counts prints count :: inner.layers

/-- The events of a request: those from before it is made, the trace of its error, and what the
layers add when the result passes them, the innermost first. -/
def Reports {α : Type} (before : List Event) (after : Except AccessError α → Layer → List Event)
    (r : Reply BitSource AccessError α) : Prop :=
  r.events = before ++ r.outcome.told AccessError.traced ++
    r.outcome.noted fun result => r.state.layers.reverse.flatMap (after result)

namespace Reports

variable {α : Type} {before : List Event} {after : Except AccessError α → Layer → List Event}
  {r r' : Reply BitSource AccessError α}

theorem cursor {x : Action BitCursor AccessError α} (traced : Traced x) (c : BitCursor) :
    Reports [] after ((x c).mapState .cursor) := by
  have events := traced.events_eq c
  generalize x c = r at events ⊢
  obtain ⟨outcome, c, log⟩ := r
  cases outcome <;> exact events.trans rfl

/-- One more layer adds its note of the result to the end. -/
theorem wrap (h : Reports before after r) {layer : Layer} (outcome : r'.outcome = r.outcome)
    (layers : r'.state.layers = layer :: r.state.layers)
    (events : r'.events = r.events ++ r.outcome.noted fun result => after result layer) :
    Reports before after r' := by
  rw [Reports, events, outcome, layers, h, List.append_assoc, Outcome.noted_append]
  simp only [List.reverse_cons, List.flatMap_append, List.flatMap_singleton]

theorem after_log (h : Reports before after r) (log : List Event) :
    Reports (log ++ before) after (r.after log) := by
  rw [Reports, List.append_assoc log, List.append_assoc log]
  exact congrArg (log ++ ·) h

theorem filter_events (h : Reports before after r)
    (early : before.filter Event.isRefusal = [])
    (late : ∀ result layer, (after result layer).filter Event.isRefusal = []) :
    r.events.filter Event.isRefusal = r.outcome.told AccessError.traced := by
  have notes : (r.outcome.noted fun result =>
      r.state.layers.reverse.flatMap (after result)).filter Event.isRefusal = [] := by
    refine Outcome.filter_noted (fun result => ?_) _
    rw [List.filter_flatMap]
    exact List.flatMap_eq_nil_iff.mpr fun layer _ => late result layer
  rw [h, List.filter_append, List.filter_append, early, notes, Outcome.filter_told,
    List.nil_append, List.append_nil]

end Reports

theorem readBits_counted (prints : Bool) (count n : Nat) (inner : BitSource) :
    let r := inner.readBits n
    let total := count + r.outcome.gain n
    (counted prints count inner).readBits n = ⟨r.outcome, .counted prints total r.state,
      r.events ++ r.outcome.noted (Layer.afterRead n · (.counts prints total))⟩ := by
  intro r total
  rw [readBits, show inner.readBits n = r from rfl]
  obtain ⟨outcome, next, log⟩ := r
  cases outcome <;> cases prints <;>
    simp [Reply.mapState, Outcome.noted, Layer.afterRead, total, Outcome.gain]

theorem skipBits_counted (prints : Bool) (count n : Nat) (inner : BitSource) :
    let r := inner.skipBits n
    let total := count + r.outcome.gain n
    (counted prints count inner).skipBits n = ⟨r.outcome, .counted prints total r.state,
      r.events ++ r.outcome.noted (Layer.afterSkip n · (.counts prints total))⟩ := by
  intro r total
  rw [skipBits, show inner.skipBits n = r from rfl]
  obtain ⟨outcome, next, log⟩ := r
  cases outcome <;> cases prints <;>
    simp [Reply.mapState, Outcome.noted, Layer.afterSkip, total, Outcome.gain]

theorem readBits_reports (n : Nat) (s : BitSource) :
    Reports [] (Layer.afterRead n) (s.readBits n) := by
  induction s with
  | cursor c => exact .cursor (BitCursor.read_traced n) c
  | logged inner ih =>
    exact ih.wrap (Reply.observed_outcome _ _)
      (congrArg (fun s => (logged s).layers) (Reply.observed_state _ _)) (Reply.observed_events _ _)
  | counted prints count inner ih =>
    rw [readBits_counted]
    exact ih.wrap rfl rfl rfl

theorem peekBits_reports (n : Nat) (s : BitSource) :
    Reports [] (Layer.afterPeek n) (s.peekBits n) := by
  induction s with
  | cursor c => exact .cursor (BitCursor.peek_traced n) c
  | logged inner ih =>
    exact ih.wrap (Reply.observed_outcome _ _)
      (congrArg (fun s => (logged s).layers) (Reply.observed_state _ _)) (Reply.observed_events _ _)
  | counted prints count inner ih =>
    refine ih.wrap rfl rfl ?_
    have nothing : (inner.peekBits n).outcome.noted
        (fun result => Layer.afterPeek n result (.counts prints count)) = [] := by
      cases (inner.peekBits n).outcome <;> rfl
    rw [nothing, List.append_nil]
    rfl

theorem skipBits_reports (n : Nat) (s : BitSource) :
    Reports (s.layers.flatMap (Layer.beforeSkip n)) (Layer.afterSkip n) (s.skipBits n) := by
  induction s with
  | cursor c => exact .cursor (BitCursor.skip_traced n) c
  | logged inner ih =>
    refine .after_log (r := (inner.skipBits n).mapState .logged) (ih.wrap rfl rfl ?_) [.skipBits n]
    have nothing : (inner.skipBits n).outcome.noted
        (fun result => Layer.afterSkip n result .logs) = [] := by
      cases (inner.skipBits n).outcome <;> rfl
    rw [nothing, List.append_nil]
    rfl
  | counted prints count inner ih =>
    rw [skipBits_counted]
    exact ih.wrap rfl rfl rfl

theorem readBits_tells (n : Nat) :
    Tells Event.isRefusal AccessError.traced (readBits n) := fun s =>
  (s.readBits_reports n).filter_events rfl (Layer.filter_afterRead n)

theorem Command.run_tells (command : Command) :
    Tells Event.isRefusal AccessError.traced command.run := by
  cases command with
  | readBits n => exact (readBits_tells n).map _
  | peekBits n =>
    exact .map (fun s => (s.peekBits_reports n).filter_events rfl (Layer.filter_afterPeek n)) _
  | skipBits n =>
    refine .map (fun s => (s.skipBits_reports n).filter_events ?_ (Layer.filter_afterSkip n)) _
    rw [List.filter_flatMap]
    exact List.flatMap_eq_nil_iff.mpr fun layer _ => Layer.filter_beforeSkip n layer

end BitSource

/-! Scalars. -/

namespace LoggedCursor

/-- A scalar at the position, or at an offset. -/
def scalar (l : Layout) : Option Nat → Action LoggedCursor AccessError l.Value
  | none => get l
  | some offset => getAt l offset

theorem scalar_events (l : Layout) (offset : Option Nat) (s : LoggedCursor) :
    let r := scalar l offset s
    r.events = r.outcome.told AccessError.traced ++
      r.outcome.noted fun result => [.scalar l offset result] := by
  cases offset with
  | none =>
    simp only [scalar, get, Reply.mapState, Reply.observed_events, Reply.observed_outcome,
      (ByteCursor.get_traced l).events_eq]
  | some offset =>
    simp only [scalar, getAt, Reply.mapState, Reply.observed_events, Reply.observed_outcome,
      (ByteCursor.getAt_traced l offset).events_eq]

theorem scalar_tells (l : Layout) (offset : Option Nat) :
    Tells Event.isRefusal AccessError.traced (scalar l offset) := by
  intro s
  rw [scalar_events, List.filter_append, Outcome.filter_told, Outcome.filter_noted fun _ => rfl,
    List.append_nil]

end LoggedCursor

/-! Sinks. -/

variable {τ ε : Type} [BitSink τ ε]

/-- A sink that traces no error; those that it has are for whoever asked. -/
def Untraced (τ ε : Type) [BitSink τ ε] : Prop :=
  ∀ value n, Tells Event.isRefusal (fun _ => []) (BitSink.writeBits value n : Action τ ε Nat)

/-- What a count adds to the events of a write that leaves it as in `r`. -/
def CountedSink.afterWrite (value : UInt64) (n : Nat) (r : Reply (CountedSink τ) ε Nat) :
    List Event :=
  match r.outcome, r.state.prints with
  | .value written, true => [.countedWrite value n written r.state.count]
  | _, _ => []

theorem CountedSink.writeBits_events (value : UInt64) (n : Nat) (s : CountedSink τ) :
    let r := BitSink.writeBits value n s
    r.events = (BitSink.writeBits value n s.inner).events ++ afterWrite value n r := by
  simp only [BitSink.writeBits, CountedSink.writeBits]
  generalize BitSink.writeBits value n s.inner = inner
  obtain ⟨outcome, t, log⟩ := inner
  obtain ⟨_, _, prints⟩ := s
  cases outcome <;> cases prints <;> simp [Reply.mapState, afterWrite]

theorem BitBuffer.untraced : Untraced BitBuffer Empty := fun value n =>
  (writeBits_tells _ _ value n).map _

theorem BoundedBitBuffer.untraced : Untraced BoundedBitBuffer AccessError := by
  intro value n b
  rw [writeBits_apply]
  split
  · rfl
  · have silent := BitBuffer.writeBits_tells Event.isRefusal (fun _ : AccessError => []) value n
      b.buffer
    refine silent.trans ?_
    change _ = Outcome.told _ (Outcome.map _ _)
    cases (BitBuffer.writeBits value n b.buffer : Reply BitBuffer AccessError Unit).outcome <;> rfl

theorem CountedSink.untraced (inner : Untraced τ ε) : Untraced (CountedSink τ) ε := by
  intro value n s
  have quiet : ∀ r : Reply (CountedSink τ) ε Nat,
      (afterWrite value n r).filter Event.isRefusal = [] := by
    rintro ⟨outcome, ⟨t, count, prints⟩, log⟩
    cases outcome <;> cases prints <;> rfl
  rw [writeBits_events, List.filter_append, quiet, List.append_nil, inner value n s.inner,
    (writeBits_inner value n s).1]

end BinaryStream
