import BinaryStream.ByteCursor.Logged
import BinaryStream.Layout.Accessor
import BinaryStream.Proofs.BitCopy
import BinaryStream.Proofs.BitSink
import BinaryStream.Proofs.BitSource
import BinaryStream.Proofs.ScalarRoundTrip

/-!
Wrappers change nothing but what they keep themselves. Through any number of them, put on at any
time, a reader answers and moves as it does alone, also when a request fails or a copy stops half
way; the totals are what has been passed since. The same holds of a count around a sink and of a
reader that reports its scalars.
-/
namespace BinaryStream

variable {τ ε : Type} [BitSink τ ε]

/-! Sources. -/

namespace BitSource

/-- A cursor alone, and a source around it; both have passed the same bits since `s`. -/
inductive Tracks (s : BitSource) : BitSource → BitSource → Prop where
  | intro (n : Nat)
      (word : s.base.position < Size.limit → s.base.position + n < Size.limit) :
    Tracks s (.cursor { s.base with position := s.base.position + n }) (s.passed n)

variable {s bare t : BitSource}

theorem Tracks.start (s : BitSource) : Tracks s (.cursor s.base) s := by
  have here := Tracks.intro (s := s) 0 id
  rwa [passed_zero] at here

theorem Tracks.follows {α : Type} {n : Nat} (tracks : Tracks s bare t)
    {r : Reply BitCursor AccessError α} {r' : Reply BitSource AccessError α}
    (h : Follows t n r r') : Reply.Mirrors (Tracks s) (r.mapState .cursor) r' := by
  obtain ⟨k, word⟩ := tracks
  obtain ⟨outcome, ⟨state, small⟩, state'⟩ := h
  refine ⟨outcome, ?_⟩
  simp only [Reply.mapState, state, state', base_passed, passed_passed, Nat.add_assoc]
  refine .intro (k + r.outcome.gain n) fun inside => ?_
  have last := small (by rw [base_passed]; exact word inside)
  rw [state, base_passed] at last
  rwa [← Nat.add_assoc]

theorem Tracks.eq_base (tracks : Tracks s bare t) : bare = .cursor t.base := by
  obtain ⟨k, -⟩ := tracks
  rw [base_passed]

theorem Tracks.readBits (tracks : Tracks s bare t) (n : Nat) :
    Reply.Mirrors (Tracks s) (bare.readBits n) (t.readBits n) := by
  have mirrors := tracks.follows (t.readBits_follows n)
  rwa [tracks.eq_base]

theorem Tracks.command (tracks : Tracks s bare t) (command : Command) :
    Reply.Mirrors (Tracks s) (command.run bare) (command.run t) := by
  have alone := tracks.eq_base
  cases command with
  | readBits n => exact .bind (tracks.readBits n) fun _ _ _ same => ⟨rfl, same⟩
  | peekBits n =>
    have mirrors := tracks.follows (t.peekBits_follows n)
    subst alone
    exact .bind mirrors fun _ _ _ same => ⟨rfl, same⟩
  | skipBits n =>
    have mirrors := tracks.follows (t.skipBits_follows n)
    subst alone
    exact .bind mirrors fun _ _ _ same => ⟨rfl, same⟩

theorem Tracks.copyTo (tracks : Tracks s bare t) (n : Nat) (sink : τ) :
    Reply.Mirrors (Beside (Tracks s) Eq) (BinaryStream.copyTo n (bare, sink))
      (BinaryStream.copyTo n (t, sink)) := by
  refine copyTo_mirrors (fun tracks => tracks.readBits) ?_ n ⟨tracks, rfl⟩
  rintro sink _ rfl value n
  exact ⟨rfl, rfl⟩

end BitSource

/-- What a reader can be asked as a source of bits; every copy brings its own sink. -/
inductive SourceRequest (τ : Type) where
  | bits (command : BitSource.Command)
  | copyTo (n : Nat) (sink : τ)
  | copyFrom (n : Nat) (sink : τ)

/-- How the request ends, and the sink that a copy leaves. -/
inductive SourceAnswer (τ ε : Type) where
  | bits (outcome : Outcome AccessError (Option UInt64))
  | copied (outcome : Outcome (CopyError ε) Unit) (sink : τ)

def SourceRequest.run : SourceRequest τ → Action BitSource Empty (SourceAnswer τ ε)
  | .bits command => fun s =>
    let r := command.run s
    ⟨.value (.bits r.outcome), r.state, r.events⟩
  | .copyTo n sink => fun s =>
    let r := BinaryStream.copyTo n (s, sink)
    ⟨.value (.copied r.outcome r.state.2), r.state.1, r.events⟩
  | .copyFrom n sink => fun s =>
    let r := BinaryStream.copyFrom n (sink, s)
    ⟨.value (.copied r.outcome r.state.1), r.state.2, r.events⟩

theorem SourceRequest.run_copyFrom (n : Nat) (sink : τ) :
    (SourceRequest.copyFrom n sink).run = (SourceRequest.copyTo n sink).run := by
  funext s
  rw [run, run, copyFrom_eq]
  rfl

theorem SourceRequest.run_mirrors {s bare t : BitSource} (tracks : BitSource.Tracks s bare t)
    (request : SourceRequest τ) :
    Reply.Mirrors (BitSource.Tracks s) (request.run bare) (request.run t) := by
  have copied (n : Nat) (sink : τ) : Reply.Mirrors (BitSource.Tracks s)
      ((SourceRequest.copyTo n sink).run bare) ((SourceRequest.copyTo n sink).run t) := by
    obtain ⟨outcome, next, same⟩ := tracks.copyTo n sink
    exact ⟨by simp only [run, outcome, same], next⟩
  cases request with
  | bits command =>
    obtain ⟨outcome, next⟩ := tracks.command command
    exact ⟨by simp only [run, outcome], next⟩
  | copyTo n sink => exact copied n sink
  | copyFrom n sink =>
    rw [run_copyFrom]
    exact copied n sink

/-! Stacks of wrappers. -/

/-- The totals of a source, the outermost first. -/
def BitSource.counts : BitSource → List Nat
  | .cursor _ => []
  | .logged inner => inner.counts
  | .counted _ count inner => count :: inner.counts

theorem BitSource.counts_passed (n : Nat) (s : BitSource) :
    (s.passed n).counts = s.counts.map (· + n) := by
  induction s with
  | cursor c => rfl
  | logged inner ih => exact ih
  | counted prints count inner ih => simp [passed, counts, ih]

/-- A source in use, with what is known of how it was put together. -/
structure Stack where
  source : BitSource
  /-- Where the cursor stood when each of the counts was put around it, the outermost first. -/
  origins : List Nat

/-- One more wrapper, which counts from zero, or a request. -/
inductive Step (τ : Type) where
  | log
  | count (prints : Bool)
  | ask (request : SourceRequest τ)

def Step.onStack : Step τ → Action Stack Empty Unit
  | .log => Action.modify fun t => { t with source := .logged t.source }
  | .count prints => Action.modify fun t =>
    ⟨.counted prints 0 t.source, t.source.base.position :: t.origins⟩
  | .ask request => fun t =>
    let r := request.run t.source
    ⟨.value (), { t with source := r.state }, r.events⟩

/-- The same without wrappers. -/
def Step.onCursor : Step τ → Action BitSource Empty Unit
  | .log | .count _ => pure ()
  | .ask request => fun s =>
    let r := request.run s
    ⟨.value (), r.state, r.events⟩

/-- Without its wrappers the stack is the cursor alone, and every total is what the cursor has
passed since it was put on; the cursor started at `first`. -/
structure Stack.Exact (first : Nat) (bare : BitSource) (t : Stack) : Prop where
  bare_eq : bare = .cursor t.source.base
  counts_eq : t.source.counts = t.origins.map (t.source.base.position - ·)
  origins_le : ∀ origin ∈ t.origins, origin ≤ t.source.base.position
  word : first < Size.limit → t.source.base.position < Size.limit

namespace Stack.Exact

variable {first : Nat} {bare : BitSource} {t : Stack}

theorem start (c : BitCursor) : Exact c.position (.cursor c) ⟨.cursor c, []⟩ :=
  ⟨rfl, rfl, nofun, id⟩

theorem passed (h : Exact first bare t) {n : Nat}
    (word : t.source.base.position < Size.limit → t.source.base.position + n < Size.limit) :
    Exact first (.cursor (t.source.passed n).base) { t with source := t.source.passed n } := by
  refine ⟨rfl, ?_, ?_, ?_⟩
  · simp only [BitSource.counts_passed, h.counts_eq, BitSource.base_passed, List.map_map]
    apply List.map_congr_left
    intro origin member
    exact (Nat.sub_add_comm (h.origins_le origin member)).symm
  · intro origin member
    rw [BitSource.base_passed]
    exact Nat.le_trans (h.origins_le origin member) (Nat.le_add_right _ _)
  · intro small
    rw [BitSource.base_passed]
    exact word (h.word small)

theorem asked (h : Exact first bare t) (request : SourceRequest τ) :
    (request.run t.source).outcome = (request.run bare).outcome ∧
      Exact first (request.run bare).state { t with source := (request.run t.source).state } := by
  obtain ⟨outcome, next⟩ := request.run_mirrors (.start t.source)
  rw [h.bare_eq]
  refine ⟨outcome, ?_⟩
  generalize (request.run (.cursor t.source.base)).state = bare' at next ⊢
  generalize (request.run t.source).state = source' at next ⊢
  obtain ⟨n, word⟩ := next
  have after := h.passed word
  rwa [BitSource.base_passed] at after

theorem step (h : Exact first bare t) (step : Step τ) :
    Exact first (step.onCursor bare).state (step.onStack t).state := by
  cases step with
  | log => exact ⟨h.bare_eq, h.counts_eq, h.origins_le, h.word⟩
  | count prints =>
    refine ⟨h.bare_eq, ?_, ?_, h.word⟩
    · change 0 :: t.source.counts = (t.source.base.position - t.source.base.position) ::
        t.origins.map (t.source.base.position - ·)
      rw [h.counts_eq, Nat.sub_self]
    · intro origin member
      rcases List.mem_cons.mp member with rfl | older
      · exact Nat.le_refl _
      · exact h.origins_le origin older
  | ask request => exact (h.asked request).2

theorem execute (c : BitCursor) (steps : List (Step τ)) :
    Exact c.position (Action.execute Step.onCursor steps (.cursor c))
      (Action.execute Step.onStack steps ⟨.cursor c, []⟩) :=
  Action.execute_related (Exact c.position) (fun step _ _ h => h.step step) steps (start c)

end Stack.Exact

/-! Sinks. -/

/-- What a sink can be asked; every copy brings its own source. -/
inductive SinkRequest where
  | write (value : UInt64) (n : Nat)
  | copyTo (n : Nat) (source : BitSource)
  | copyFrom (n : Nat) (source : BitSource)

/-- How the request ends, and the source that a copy leaves. -/
inductive SinkAnswer (ε : Type) where
  | written (outcome : Outcome ε Nat)
  | copied (outcome : Outcome (CopyError ε) Unit) (source : BitSource)

def SinkRequest.run : SinkRequest → Action τ Empty (SinkAnswer ε)
  | .write value n => fun t =>
    let r := BitSink.writeBits value n t
    ⟨.value (.written r.outcome), r.state, r.events⟩
  | .copyTo n source => fun t =>
    let r := BinaryStream.copyTo n (source, t)
    ⟨.value (.copied r.outcome r.state.1), r.state.2, r.events⟩
  | .copyFrom n source => fun t =>
    let r := BinaryStream.copyFrom n (t, source)
    ⟨.value (.copied r.outcome r.state.2), r.state.1, r.events⟩

theorem SinkRequest.run_copyFrom (n : Nat) (source : BitSource) :
    ((SinkRequest.copyFrom n source).run : Action τ Empty (SinkAnswer ε)) =
      (SinkRequest.copyTo n source).run := by
  funext t
  rw [run, run, copyFrom_eq]
  rfl

/-- A sink alone and one with a count around it, which is what came to the sink since it held
`before` bits. -/
structure Counts (size : τ → Nat) (Valid : τ → Prop) (prints : Bool) (before : Nat) (t : τ)
    (s : CountedSink τ) : Prop where
  inner_eq : s.inner = t
  prints_eq : s.prints = prints
  valid : Valid t
  total : before + s.count = size t

namespace Counts

variable {size : τ → Nat} {Valid : τ → Prop} {prints : Bool} {before : Nat} {t : τ}
  {s : CountedSink τ}

theorem write (appends : Appends τ ε size Valid) (counts : Counts size Valid prints before t s)
    (value : UInt64) (n : Nat) :
    Reply.Mirrors (Counts size Valid prints before) (BitSink.writeBits value n t)
      (BitSink.writeBits value n s) := by
  obtain ⟨rfl, rfl, valid, total⟩ := counts
  obtain ⟨outcome, state⟩ := CountedSink.writeBits_inner value n s
  obtain ⟨next, taken⟩ := appends.write valid value n
  refine ⟨outcome, ?_⟩
  rw [state]
  refine ⟨rfl, rfl, next, ?_⟩
  change before + (s.count + (BitSink.writeBits value n s.inner).outcome.taken) = _
  rcases taken with ⟨done, grown⟩ | ⟨failed, same⟩
  · rw [grown, done, Outcome.taken, ← total, Nat.add_assoc]
  · rw [same, Outcome.taken_of_not_value failed, Nat.add_zero, total]

theorem copyTo (appends : Appends τ ε size Valid) (counts : Counts size Valid prints before t s)
    (n : Nat) (source : BitSource) :
    Reply.Mirrors (Beside Eq (Counts size Valid prints before)) (BinaryStream.copyTo n (source, t))
      (BinaryStream.copyTo n (source, s)) := by
  refine copyTo_mirrors ?_ (fun counts => counts.write appends) n ⟨rfl, counts⟩
  rintro source _ rfl n
  exact ⟨rfl, rfl⟩

theorem run (appends : Appends τ ε size Valid) (counts : Counts size Valid prints before t s)
    (request : SinkRequest) :
    Reply.Mirrors (Counts size Valid prints before) (request.run t) (request.run s) := by
  have copied (n : Nat) (source : BitSource) : Reply.Mirrors (Counts size Valid prints before)
      ((SinkRequest.copyTo n source).run t) ((SinkRequest.copyTo n source).run s) := by
    obtain ⟨outcome, same, next⟩ := counts.copyTo appends n source
    exact ⟨by simp only [SinkRequest.run, outcome, same], next⟩
  cases request with
  | write value n =>
    obtain ⟨outcome, next⟩ := counts.write appends value n
    exact ⟨by simp only [SinkRequest.run, outcome], next⟩
  | copyTo n source => exact copied n source
  | copyFrom n source =>
    rw [SinkRequest.run_copyFrom, SinkRequest.run_copyFrom]
    exact copied n source

theorem execute (appends : Appends τ ε size Valid) (valid : Valid t) (prints : Bool)
    (requests : List SinkRequest) :
    Counts size Valid prints (size t) (Action.execute SinkRequest.run requests t)
      (Action.execute SinkRequest.run requests (CountedSink.ofSink t prints)) := by
  apply Action.execute_related (Counts size Valid prints (size t))
  · intro request t s counts
    exact (counts.run appends request).state
  · exact ⟨rfl, rfl, valid, Nat.add_zero _⟩

end Counts

/-! Scalars. -/

/-- How a scalar is asked for: by its layout, or by the name of an accessor. -/
inductive Accessor where
  | typed (l : Layout)
  | named (name : String)

def Accessor.layout? : Accessor → Option Layout
  | .typed l => some l
  | .named name => Layout.ofAccessor? name

/-- A scalar at the position, or at an offset. -/
structure ScalarRequest where
  accessor : Accessor
  offset : Option Nat

/-- The scalar with its layout; a name that is no accessor's asks for none. -/
def ScalarRequest.run {σ : Type} (get : (l : Layout) → Action σ AccessError l.Value)
    (getAt : (l : Layout) → Nat → Action σ AccessError l.Value) (request : ScalarRequest) :
    Action σ AccessError (Option Item) :=
  match request.accessor.layout?, request.offset with
  | none, _ => pure none
  | some l, none => do
    let value ← get l
    pure (some ⟨l, value⟩)
  | some l, some offset => do
    let value ← getAt l offset
    pure (some ⟨l, value⟩)

def ScalarRequest.onCursor : ScalarRequest → Action ByteCursor AccessError (Option Item) :=
  ScalarRequest.run ByteCursor.get ByteCursor.getAt

def ScalarRequest.onLogged : ScalarRequest → Action LoggedCursor AccessError (Option Item) :=
  ScalarRequest.run LoggedCursor.get LoggedCursor.getAt

theorem LoggedCursor.get_mirrors (l : Layout) (c : ByteCursor) :
    Reply.Mirrors (fun c (s : LoggedCursor) => s.cursor = c) (ByteCursor.get l c)
      (LoggedCursor.get l ⟨c⟩) := by
  refine ⟨?_, ?_⟩ <;> simp [LoggedCursor.get, Reply.mapState]

theorem LoggedCursor.getAt_mirrors (l : Layout) (offset : Nat) (c : ByteCursor) :
    Reply.Mirrors (fun c (s : LoggedCursor) => s.cursor = c) (ByteCursor.getAt l offset c)
      (LoggedCursor.getAt l offset ⟨c⟩) := by
  refine ⟨?_, ?_⟩ <;> simp [LoggedCursor.getAt, Reply.mapState]

theorem ScalarRequest.run_mirrors (request : ScalarRequest) (c : ByteCursor) :
    Reply.Mirrors (fun c (s : LoggedCursor) => s.cursor = c) (request.onCursor c)
      (request.onLogged ⟨c⟩) := by
  obtain ⟨accessor, offset⟩ := request
  simp only [onCursor, onLogged, run]
  cases accessor.layout? with
  | none => exact ⟨rfl, rfl⟩
  | some l =>
    cases offset with
    | none => exact .bind (LoggedCursor.get_mirrors l c) fun _ _ _ same => ⟨rfl, same⟩
    | some offset =>
      exact .bind (LoggedCursor.getAt_mirrors l offset c) fun _ _ _ same => ⟨rfl, same⟩

theorem ScalarRequest.execute_eq (requests : List ScalarRequest) (c : ByteCursor) :
    (Action.execute onLogged requests ⟨c⟩).cursor = Action.execute onCursor requests c := by
  refine Action.execute_related (fun c (s : LoggedCursor) => s.cursor = c) ?_ requests rfl
  rintro request _ ⟨c⟩ rfl
  exact (request.run_mirrors c).state

/-! All of them. -/

/-- Through any wrappers, put around any cursor at any time between any requests, every request ends
as it does on the cursor alone, faults included, and leaves the cursor in the same state; a total is
where the cursor stands less where it stood when the count was put around it, whatever has failed in
between, so it is a word. A count around a sink that takes all bits of a write or none is what came
to that sink since, and forwards every result and error. A reader that reports its scalars answers
and moves as the reader inside, also by the names of the accessors. -/
theorem wrappers_transparent {τ ε : Type} [BitSink τ ε] :
    (∀ (c : BitCursor) (steps : List (Step τ)) (request : SourceRequest τ),
      let bare := Action.execute Step.onCursor steps (.cursor c)
      let t := Action.execute Step.onStack steps ⟨.cursor c, []⟩
      let position := t.source.base.position
      bare = .cursor t.source.base ∧
      (request.run t.source).outcome = (request.run bare).outcome ∧
      t.source.counts = t.origins.map (position - ·) ∧ (∀ origin ∈ t.origins, origin ≤ position) ∧
      (c.position < Size.limit → ∀ count ∈ t.source.counts, count < Size.limit)) ∧
    (∀ (size : τ → Nat) (Valid : τ → Prop), Appends τ ε size Valid →
      ∀ (t : τ) (prints : Bool) (requests : List SinkRequest) (request : SinkRequest), Valid t →
        let bare := Action.execute SinkRequest.run requests t
        let s := Action.execute SinkRequest.run requests (CountedSink.ofSink t prints)
        s.inner = bare ∧ size t + s.count = size bare ∧
        (request.run s).outcome = (request.run bare).outcome) ∧
    ∀ (c : ByteCursor) (requests : List ScalarRequest) (request : ScalarRequest),
      let bare := Action.execute ScalarRequest.onCursor requests c
      let s := Action.execute ScalarRequest.onLogged requests ⟨c⟩
      s.cursor = bare ∧ (request.onLogged s).outcome = (request.onCursor bare).outcome := by
  refine ⟨?_, ?_, ?_⟩
  · intro c steps request bare t position
    have exact : Stack.Exact c.position bare t := .execute c steps
    refine ⟨exact.bare_eq, (exact.asked request).1, exact.counts_eq, exact.origins_le, ?_⟩
    intro small count member
    rw [exact.counts_eq] at member
    obtain ⟨origin, -, rfl⟩ := List.mem_map.mp member
    exact Nat.lt_of_le_of_lt (Nat.sub_le _ _) (exact.word small)
  · intro size Valid appends t prints requests request valid bare s
    have counts : Counts size Valid prints (size t) bare s := .execute appends valid prints requests
    exact ⟨counts.inner_eq, counts.total, (counts.run appends request).outcome_eq⟩
  · intro c requests request bare s
    have same : s.cursor = bare := ScalarRequest.execute_eq requests c
    refine ⟨same, ?_⟩
    rw [← same]
    exact (request.run_mirrors s.cursor).outcome_eq

/-- Two counts with a report between them, after requests that fail; a count around a sink that
refuses its second write; and an accessor by its name. -/
theorem wrappers_transparent_nested :
    let c : BitCursor := ⟨List.replicate 20 0xA7, 0, 160, 0⟩
    let steps : List (Step BoundedBitBuffer) := [.ask (.bits (.skipBits 3)), .count true,
      .ask (.bits (.skipBits 5)), .log, .count false, .ask (.bits (.skipBits 200)),
      .ask (.bits (.readBits 65)), .ask (.bits (.skipBits 100))]
    let sink : BoundedBitBuffer := ⟨.empty, 10⟩
    let s := Action.execute SinkRequest.run [.write 5 3, .write 1 20]
      (CountedSink.ofSink sink true)
    let reader : LoggedCursor := ⟨.ofBytes [1, 2, 3, 4]⟩
    (Action.execute Step.onStack steps ⟨.cursor c, []⟩).source.counts = [100, 105] ∧
      s.count = 3 ∧ s.inner.buffer.size = 3 ∧
      (ScalarRequest.onLogged ⟨.named "u16b", some 1⟩ reader).outcome =
        .value (some ⟨⟨.big, .unsigned .w16⟩, 0x0203⟩) := by
  intro c steps sink s reader
  obtain ⟨sources, sinks, scalars⟩ := wrappers_transparent (τ := BoundedBitBuffer)
  have holding : sink.buffer.Holding := ⟨[], BitBuffer.empty_represents⟩
  obtain ⟨-, -, counts, -⟩ := sources c steps (.bits (.readBits 1))
  obtain ⟨inner, total, -⟩ := sinks _ _ BoundedBitBuffer.appends sink true
    [.write 5 3, .write 1 20] (.write 0 0) holding
  obtain ⟨-, answered⟩ := scalars (.ofBytes [1, 2, 3, 4]) [] ⟨.named "u16b", some 1⟩
  -- The sink alone takes the first write, and the second is beyond its limit.
  obtain ⟨b, wrote, -, size⟩ := holding.writeBits AccessError 5 (n := 3) (by decide)
  have first : (SinkRequest.run (.write 5 3) sink).state = ⟨b, 10⟩ := by
    change (BitSink.writeBits 5 3 sink).state = _
    rw [BoundedBitBuffer.writeBits_apply, if_neg (by decide), wrote]
  have second : (SinkRequest.run (.write 1 20) (⟨b, 10⟩ : BoundedBitBuffer)).state = ⟨b, 10⟩ := by
    change (BitSink.writeBits 1 20 (⟨b, 10⟩ : BoundedBitBuffer)).state = _
    rw [BoundedBitBuffer.writeBits_apply, if_pos (show 10 < b.size + 20 by omega)]
  have alone : Action.execute SinkRequest.run [.write 5 3, .write 1 20] sink = ⟨b, 10⟩ := by
    rw [Action.execute, first, Action.execute, second, Action.execute]
  have three : b.size = 3 := size
  rw [alone] at inner total
  refine ⟨counts.trans (by decide), ?_, ?_, answered.trans rfl⟩
  · exact ((Nat.zero_add _).symm.trans total).trans three
  · rw [inner, three]

end BinaryStream
