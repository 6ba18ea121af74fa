import BinaryStream.Proofs.BitCopy
import BinaryStream.Proofs.BitCursor.Reachable
import BinaryStream.Proofs.BitSink
import BinaryStream.Proofs.BitSource

/-!
How far a copy of bits comes. A copy moves pieces of 64 bits and a last one that may be shorter;
each piece is read first and written then. It succeeds when the source has the bits and the sink has
the room, and otherwise stops at the first piece that one of them lacks: nothing is written twice,
and only a piece that was read and found no room is lost.
-/
namespace BinaryStream

variable {τ ε : Type} [BitSink τ ε]

/-! One piece. -/

section Piece

variable {n : Nat} {source next : BitSource} {sink : τ} {value : UInt64} {log : List Event}

@[simp] theorem copyTo_zero (p : BitSource × τ) :
    (copyTo 0 : Action (BitSource × τ) (CopyError ε) Unit) p = ⟨.value (), p, []⟩ := by
  rw [copyTo, if_pos rfl]
  rfl

/-- What a copy does first, and what it leaves to do. -/
theorem copyTo_of_ne_zero (some : n ≠ 0) :
    (copyTo n : Action (BitSource × τ) (CopyError ε) Unit) = (do
      let value ← Action.mapError .read (Action.onFirst (BitSource.readBits (min n 64)))
      let _ ← Action.mapError .write (Action.onSecond (BitSink.writeBits value (min n 64)))
      copyTo (n - min n 64)) := by
  rw [copyTo, if_neg some]

theorem copyTo_of_moved {taken : Nat} {more : List Event} {sink' : τ} (some : n ≠ 0)
    (read : source.readBits (min n 64) = ⟨.value value, next, log⟩)
    (wrote : BitSink.writeBits value (min n 64) sink = ⟨.value taken, sink', more⟩) :
    copyTo n (source, sink) =
      (copyTo (n - min n 64) (next, sink')).after (log ++ more) := by
  have first : Action.mapError .read (Action.onFirst (BitSource.readBits (min n 64)))
      (source, sink) = (⟨.value value, (next, sink), log⟩ : Reply _ (CopyError ε) _) := by
    simp [Action.mapError, Action.onFirst, read, Reply.mapState, Outcome.mapError]
  have second : Action.mapError .write (Action.onSecond (BitSink.writeBits value (min n 64)))
      (next, sink) = (⟨.value taken, (next, sink'), more⟩ : Reply _ (CopyError ε) _) := by
    simp [Action.mapError, Action.onSecond, wrote, Reply.mapState, Outcome.mapError]
  rw [copyTo_of_ne_zero some, Action.bind_of_value first, Action.bind_of_value second]
  simp [Reply.after]

theorem copyTo_of_not_read {e : AccessError} (some : n ≠ 0)
    (read : source.readBits (min n 64) = ⟨.error e, next, log⟩) :
    copyTo n (source, sink) = ⟨.error (.read e), (next, sink), log⟩ := by
  have first : Action.mapError .read (Action.onFirst (BitSource.readBits (min n 64)))
      (source, sink) = (⟨.error (.read e), (next, sink), log⟩ : Reply _ (CopyError ε) _) := by
    simp [Action.mapError, Action.onFirst, read, Reply.mapState, Outcome.mapError]
  rw [copyTo_of_ne_zero some, Action.bind_apply, first]

theorem copyTo_of_not_written {e : ε} {more : List Event} {sink' : τ} (some : n ≠ 0)
    (read : source.readBits (min n 64) = ⟨.value value, next, log⟩)
    (wrote : BitSink.writeBits value (min n 64) sink = ⟨.error e, sink', more⟩) :
    copyTo n (source, sink) = ⟨.error (.write e), (next, sink'), log ++ more⟩ := by
  have first : Action.mapError .read (Action.onFirst (BitSource.readBits (min n 64)))
      (source, sink) = (⟨.value value, (next, sink), log⟩ : Reply _ (CopyError ε) _) := by
    simp [Action.mapError, Action.onFirst, read, Reply.mapState, Outcome.mapError]
  have second : Action.mapError .write (Action.onSecond (BitSink.writeBits value (min n 64)))
      (next, sink) = (⟨.error (.write e), (next, sink'), more⟩ : Reply _ (CopyError ε) _) := by
    simp [Action.mapError, Action.onSecond, wrote, Reply.mapState, Outcome.mapError]
  rw [copyTo_of_ne_zero some, Action.bind_of_value first, Action.bind_apply, second]
  rfl

end Piece

/-- Whole pieces come first: a copy is the copy of its whole pieces and then of what is left. -/
theorem copyTo_add (q n : Nat) :
    (copyTo (64 * q + n) : Action (BitSource × τ) (CopyError ε) Unit) =
      copyTo (64 * q) >>= fun _ => copyTo n := by
  induction q with
  | zero =>
    funext p
    rw [Nat.mul_zero, Nat.zero_add, Action.bind_of_value (copyTo_zero p), Reply.after_nil]
  | succ q ih =>
    have first : min (64 * (q + 1) + n) 64 = 64 := by omega
    have alone : min (64 * (q + 1)) 64 = 64 := by omega
    have left : 64 * (q + 1) + n - 64 = 64 * q + n := by omega
    have rest : 64 * (q + 1) - 64 = 64 * q := by omega
    rw [copyTo_of_ne_zero (by omega), copyTo_of_ne_zero (show 64 * (q + 1) ≠ 0 by omega)]
    simp only [first, alone, left, rest, ih, Action.bind_assoc]

/-! As far as both sides allow. -/

/-- The bits that can be copied where `readable` are left and there is `room` for more. -/
def reach (readable : Nat) (room : ℕ∞) : Nat := (room.map (min readable)).untopD readable

@[simp] theorem reach_top (readable : Nat) : reach readable ⊤ = readable := rfl

@[simp] theorem reach_natCast (readable w : Nat) : reach readable w = min readable w := rfl

theorem le_reach_iff {n readable : Nat} {room : ℕ∞} :
    n ≤ reach readable room ↔ n ≤ readable ∧ (n : ℕ∞) ≤ room := by
  cases room with
  | top => simp
  | coe w => rw [reach_natCast, Nat.le_min, Nat.cast_le]

variable {view : SinkView τ ε} {source : BitSource} {sink : τ} {l : List Bool} {room : ℕ∞} {n : Nat}

theorem copyTo_of_room (framed : source.base.Framed) (held : view.Holds sink l room)
    (readable : n ≤ source.base.remaining) (writable : (n : ℕ∞) ≤ room) :
    ∃ sink' log, copyTo n (source, sink) = ⟨.value (), (source.passed n, sink'), log⟩ ∧
      view.Holds sink' (l ++ source.base.next n) (room - n) := by
  induction n using Nat.strongRecOn generalizing source sink l room with
  | ind n ih =>
    by_cases done : n = 0
    · subst done
      refine ⟨sink, [], by simp, ?_⟩
      simpa [BitCursor.next] using held
    · have narrow : min n 64 ≤ 64 := Nat.min_le_right _ _
      have part : min n 64 ≤ n := Nat.min_le_left _ _
      have whole : min n 64 + (n - min n 64) = n := Nat.add_sub_cancel' part
      have first : min n 64 ≤ source.base.remaining := Nat.le_trans part readable
      obtain ⟨log, read⟩ := BitSource.readBits_of_room framed narrow first
      obtain ⟨sink₁, more, wrote, held₁⟩ := view.write_of_room held
        (UInt64.ofNat (numeral (source.base.next (min n 64)))) narrow
        (le_trans (Nat.cast_le.mpr part) writable)
      rw [framed.field_word_next narrow first] at held₁
      -- What is left to copy fits what is left on either side.
      have rest : n - min n 64 ≤ (source.passed (min n 64)).base.remaining := by
        rw [BitSource.remaining_passed]
        omega
      have space : ((n - min n 64 : ℕ) : ℕ∞) ≤ room - (min n 64 : ℕ) := by
        rw [ENat.natCast_sub]
        exact tsub_le_tsub_right writable _
      obtain ⟨sink₂, last, ran, held₂⟩ := ih (n - min n 64) (by omega)
        (BitSource.framed_passed framed first) held₁ rest space
      refine ⟨sink₂, log ++ more ++ last, ?_, ?_⟩
      · rw [copyTo_of_moved done read wrote, ran, BitSource.passed_passed, whole]
        rfl
      · rw [List.append_assoc, BitSource.base_passed, ← BitCursor.next_add, tsub_tsub,
          ← Nat.cast_add, whole] at held₂
        exact held₂

theorem copyTo_of_unreadable (sink : τ) (framed : source.base.Framed) (some : n ≠ 0)
    (short : source.base.remaining < min n 64) :
    ∃ log, copyTo n (source, sink) =
      ⟨.error (.read (.outOfRange source.base.position (min n 64) source.base.length)),
        (source, sink), log⟩ := by
  obtain ⟨log, read⟩ := BitSource.readBits_of_no_room framed (Nat.min_le_right n 64) short
  exact ⟨log, copyTo_of_not_read some read⟩

theorem copyTo_of_unwritable (framed : source.base.Framed) (held : view.Holds sink l room)
    (some : n ≠ 0) (readable : min n 64 ≤ source.base.remaining)
    (full : room < (min n 64 : ℕ)) :
    ∃ e sink' log,
      (BitSink.writeBits (UInt64.ofNat (numeral (source.base.next (min n 64)))) (min n 64)
        sink).outcome = .error e ∧
      copyTo n (source, sink) =
        ⟨.error (.write e), (source.passed (min n 64), sink'), log⟩ ∧
      view.Holds sink' l room := by
  have narrow := Nat.min_le_right n 64
  obtain ⟨log, read⟩ := BitSource.readBits_of_room framed narrow readable
  obtain ⟨e, sink', more, wrote, held'⟩ := view.write_of_no_room held
    (UInt64.ofNat (numeral (source.base.next (min n 64)))) narrow full
  exact ⟨e, sink', _, by rw [wrote], copyTo_of_not_written some read wrote, held'⟩

/-- A copy of `n` bits that asks for too much: the bits in the whole pieces that both sides allow,
and the size of the piece after them. -/
structure StopsAt (n readable : Nat) (room : ℕ∞) (whole size : Nat) : Prop where
  beyond : reach readable room < n
  whole_eq : whole = 64 * (reach readable room / 64)
  size_eq : size = min 64 (n - whole)

namespace StopsAt

variable {readable whole size : Nat}

theorem whole_le (stop : StopsAt n readable room whole size) :
    whole ≤ readable ∧ (whole : ℕ∞) ≤ room := by
  apply le_reach_iff.mp
  have := stop.whole_eq
  omega

theorem left_ne_zero (stop : StopsAt n readable room whole size) : n - whole ≠ 0 := by
  have := stop.beyond
  have := stop.whole_eq
  omega

theorem piece_eq (stop : StopsAt n readable room whole size) : min (n - whole) 64 = size := by
  rw [stop.size_eq, Nat.min_comm]

/-- The piece after the whole ones is too much for one of the sides: if it can be read, it finds no
room. -/
theorem no_room_of_readable (stop : StopsAt n readable room whole size)
    (enough : whole + size ≤ readable) : room - (whole : ℕ) < size := by
  obtain ⟨-, fits⟩ := stop.whole_le
  obtain ⟨beyond, whole_eq, size_eq⟩ := stop
  have past : ¬ whole + size ≤ reach readable room := by omega
  cases room with
  | top =>
    rw [reach_top] at past
    exact absurd enough past
  | coe w =>
    rw [le_reach_iff, not_and] at past
    have outside := past enough
    norm_cast at outside fits ⊢
    omega

theorem copyTo_eq_bind (stop : StopsAt n readable room whole size) :
    (copyTo n : Action (BitSource × τ) (CopyError ε) Unit) =
      copyTo whole >>= fun _ => copyTo (n - whole) := by
  have parts : whole + (n - whole) = n := by
    have := stop.left_ne_zero
    omega
  rw [stop.whole_eq, ← copyTo_add, ← stop.whole_eq, parts]

variable {source : BitSource} (stop : StopsAt n source.base.remaining room whole size)
  (framed : source.base.Framed) (held : view.Holds sink l room)

include stop framed held

/-- Where the source lacks the piece after the whole ones, the copy stands before it. -/
theorem copyTo_of_short_source (short : source.base.remaining < whole + size) :
    ∃ sink' log, copyTo n (source, sink) =
        ⟨.error (.read (.outOfRange (source.base.position + whole) size source.base.length)),
          (source.passed whole, sink'), log⟩ ∧
      view.Holds sink' (l ++ source.base.next whole) (room - whole) := by
  obtain ⟨readable, writable⟩ := stop.whole_le
  obtain ⟨sink', log, moved, held'⟩ := copyTo_of_room framed held readable writable
  have lacking : (source.passed whole).base.remaining < min (n - whole) 64 := by
    rw [BitSource.remaining_passed, stop.piece_eq]
    omega
  obtain ⟨last, stopped⟩ := copyTo_of_unreadable sink'
    (BitSource.framed_passed framed readable) stop.left_ne_zero lacking
  refine ⟨sink', log ++ last, ?_, held'⟩
  rw [stop.copyTo_eq_bind, Action.bind_of_value moved, stopped, BitSource.base_passed,
    stop.piece_eq]
  rfl

/-- Where the sink has no room for it, the piece was read and is in neither. -/
theorem copyTo_of_full_sink (enough : whole + size ≤ source.base.remaining) :
    ∃ e before sink' log, (copyTo whole (source, sink)).outcome = .value () ∧
      (copyTo whole (source, sink)).state = (source.passed whole, before) ∧
      (BitSink.writeBits (UInt64.ofNat (numeral ((source.passed whole).base.next size))) size
        before).outcome = .error e ∧
      copyTo n (source, sink) = ⟨.error (.write e), (source.passed (whole + size), sink'), log⟩ ∧
      view.Holds sink' (l ++ source.base.next whole) (room - whole) := by
  obtain ⟨readable, writable⟩ := stop.whole_le
  obtain ⟨before, log, moved, held₁⟩ := copyTo_of_room framed held readable writable
  have next : min (n - whole) 64 ≤ (source.passed whole).base.remaining := by
    rw [BitSource.remaining_passed, stop.piece_eq]
    omega
  have full : room - (whole : ℕ) < (min (n - whole) 64 : ℕ) := by
    rw [stop.piece_eq]
    exact stop.no_room_of_readable enough
  obtain ⟨e, sink', last, refused, stopped, held₂⟩ := copyTo_of_unwritable
    (BitSource.framed_passed framed readable) held₁ stop.left_ne_zero next full
  rw [stop.piece_eq] at refused
  refine ⟨e, before, sink', log ++ last, by rw [moved], by rw [moved], refused, ?_, held₂⟩
  rw [stop.copyTo_eq_bind, Action.bind_of_value moved, stopped, BitSource.passed_passed,
    stop.piece_eq]
  rfl

end StopsAt

/-! Seen through counts. -/

/-- A source and a sink, and the same with counts around them. -/
inductive Metered (prints prints' : Bool) : BitSource × τ → BitSource × CountedSink τ → Prop where
  | intro (read written : Nat) (source : BitSource) (sink : τ) :
    Metered prints prints' (source, sink) (.counted prints read source, ⟨sink, written, prints'⟩)

theorem Metered.eq_of_counts {prints prints' : Bool} {p : BitSource × τ}
    {p' : BitSource × CountedSink τ} {read written : Nat} (metered : Metered prints prints' p p')
    (reads : p'.1.count? = some read) (writes : p'.2.count = written) :
    p' = (.counted prints read p.1, ⟨p.2, written, prints'⟩) := by
  obtain ⟨_, _, source, sink⟩ := metered
  simp only [BitSource.count?, Option.some.injEq] at reads writes
  rw [reads, writes]

/-- Counts around a source and a sink change nothing but themselves. -/
theorem copyTo_metered {prints prints' : Bool} (n : Nat) {p : BitSource × τ}
    {p' : BitSource × CountedSink τ} (metered : Metered prints prints' p p') :
    Reply.Mirrors (Metered prints prints') (copyTo n p) (copyTo n p') := by
  obtain ⟨read, written, source, sink⟩ := metered
  have mirrors : Reply.Mirrors
      (Beside (fun s t => ∃ count, t = .counted prints count s)
        fun x y => ∃ count, y = (⟨x, count, prints'⟩ : CountedSink τ))
      (copyTo n (source, sink))
      (copyTo n (.counted prints read source, (⟨sink, written, prints'⟩ : CountedSink τ))) := by
    refine copyTo_mirrors ?_ ?_ n ⟨⟨read, rfl⟩, ⟨written, rfl⟩⟩
    · rintro source _ ⟨read, rfl⟩ n
      have bare := source.readBits_follows n
      have counted := (BitSource.counted prints read source).readBits_follows n
      refine ⟨counted.outcome_eq.trans bare.outcome_eq.symm, ?_⟩
      rw [bare.state_eq, counted.state_eq]
      exact ⟨_, rfl⟩
    · rintro sink _ ⟨written, rfl⟩ value n
      obtain ⟨outcome, state⟩ := CountedSink.writeBits_inner value n ⟨sink, written, prints'⟩
      exact ⟨outcome, _, state⟩
  obtain ⟨outcome, ⟨read', sources⟩, ⟨written', sinks⟩⟩ := mirrors
  have state : _ = ((_, _) : BitSource × CountedSink τ) := Prod.ext sources sinks
  refine ⟨outcome, ?_⟩
  rw [state]
  exact .intro read' written' _ _

/-- Both counts grow by what passed, so they part by a piece that was read and not written. -/
theorem counts_of_copyTo (framed : source.base.Framed) (held : view.Holds sink l room) (n : Nat)
    (prints prints' : Bool) (read written : Nat) :
    let whole := 64 * (reach source.base.remaining room / 64)
    let r := copyTo n (BitSource.counted prints read source,
      (⟨sink, written, prints'⟩ : CountedSink τ))
    ∃ gain gain', r.state.1.count? = some (read + gain) ∧ r.state.2.count = written + gain' ∧
      ((∃ e, r.outcome = .error (.write e)) → gain = gain' + min 64 (n - whole)) ∧
      ((∀ e, r.outcome ≠ .error (.write e)) → gain = gain') := by
  intro whole r
  have framed' : (BitSource.counted prints read source).base.Framed := framed
  have held' : (view.counted l written).Holds ⟨sink, written, prints'⟩ l room := ⟨held, rfl⟩
  have grown : ∀ {k : Nat} {s : CountedSink τ}, k ≤ source.base.remaining →
      s.count + l.length = written + (l ++ source.base.next k).length →
        s.count = written + k := by
    intro k s inside total
    rw [List.length_append, framed.length_next inside] at total
    omega
  by_cases enough : n ≤ reach source.base.remaining room
  · obtain ⟨readable, writable⟩ := le_reach_iff.mp enough
    obtain ⟨s, log, ran, -, total⟩ := copyTo_of_room framed' held' readable writable
    refine ⟨n, n, ?_, ?_, ?_, fun _ => rfl⟩
    · simp only [r, ran, BitSource.passed, BitSource.count?]
    · simp only [r, ran, grown readable total]
    · simp only [r, ran, reduceCtorEq, exists_false, false_implies]
  · have stop : StopsAt n (BitSource.counted prints read source).base.remaining room whole
        (min 64 (n - whole)) := ⟨Nat.not_le.mp enough, rfl, rfl⟩
    have within := stop.whole_le.1
    by_cases short : source.base.remaining < whole + min 64 (n - whole)
    · obtain ⟨s, log, ran, -, total⟩ := stop.copyTo_of_short_source framed' held' short
      refine ⟨whole, whole, ?_, ?_, ?_, fun _ => rfl⟩
      · simp only [r, ran, BitSource.passed, BitSource.count?]
      · simp only [r, ran, grown within total]
      · simp only [r, ran, reduceCtorEq, Outcome.error.injEq, exists_false, false_implies]
    · obtain ⟨e, before, s, log, -, -, -, ran, -, total⟩ :=
        stop.copyTo_of_full_sink framed' held' (Nat.not_lt.mp short)
      refine ⟨whole + min 64 (n - whole), whole, ?_, ?_, fun _ => rfl, ?_⟩
      · simp only [r, ran, BitSource.passed, BitSource.count?]
      · simp only [r, ran, grown within total]
      · intro others
        exact absurd (by simp only [r, ran]) (others e)

/-- Let a source have `c.remaining` bits left and a sink `room` for more, in any reading of the sink
under which a field is taken whole or refused whole. A copy of `n` bits succeeds when both allow it.
Beyond that it stops at the first piece that one of them lacks, after the whole pieces that both
allow: the sink has gained those and nothing else; the source stands before the piece if it could
not be read, which is tried first, and behind it if the sink refused it, with the sink's own error.
Counts around the two sides change nothing of this and part by the piece that was read in vain. -/
theorem copy_stops_at_piece (view : SinkView τ ε) {source : BitSource} {sink : τ} {l : List Bool}
    {room : ℕ∞} (reached : source.base.Reachable) (held : view.Holds sink l room) (n : Nat) :
    let c := source.base
    let whole := 64 * (reach c.remaining room / 64)
    let size := min 64 (n - whole)
    let r := copyTo n (source, sink)
    copyFrom n (sink, source) = r.mapState Prod.swap ∧
    (n ≤ reach c.remaining room →
      r.outcome = .value () ∧ r.state.1 = source.passed n ∧
        view.Holds r.state.2 (l ++ c.next n) (room - n)) ∧
    (reach c.remaining room < n →
      view.Holds r.state.2 (l ++ c.next whole) (room - whole) ∧
      (c.remaining < whole + size →
        r.outcome = .error (.read (.outOfRange (c.position + whole) size c.length)) ∧
          r.state.1 = source.passed whole) ∧
      (whole + size ≤ c.remaining →
        let before := copyTo whole (source, sink)
        r.state.1 = source.passed (whole + size) ∧ before.outcome = .value () ∧
          ∃ e, r.outcome = .error (.write e) ∧
            (BitSink.writeBits (UInt64.ofNat (numeral (before.state.1.base.next size))) size
              before.state.2).outcome = .error e)) ∧
    ∀ (prints prints' : Bool) (read written : Nat),
      let counted := copyTo n (BitSource.counted prints read source,
        (⟨sink, written, prints'⟩ : CountedSink τ))
      copyFrom n ((⟨sink, written, prints'⟩ : CountedSink τ),
        BitSource.counted prints read source) = counted.mapState Prod.swap ∧
      counted.outcome = r.outcome ∧
      ∃ gain gain', counted.state = (.counted prints (read + gain) r.state.1,
          ⟨r.state.2, written + gain', prints'⟩) ∧
        ((∃ e, r.outcome = .error (.write e)) → gain = gain' + size) ∧
        ((∀ e, r.outcome ≠ .error (.write e)) → gain = gain') := by
  intro c whole size r
  have framed := reached.framed
  refine ⟨by rw [copyFrom_eq]; rfl, ?_, ?_, ?_⟩
  · intro enough
    obtain ⟨readable, writable⟩ := le_reach_iff.mp enough
    obtain ⟨sink', log, ran, held'⟩ := copyTo_of_room framed held readable writable
    simp only [r, ran]
    exact ⟨trivial, trivial, held'⟩
  · intro beyond
    have stop : StopsAt n c.remaining room whole size := ⟨beyond, rfl, rfl⟩
    by_cases short : c.remaining < whole + size
    · obtain ⟨sink', log, ran, held'⟩ := stop.copyTo_of_short_source framed held short
      simp only [r, ran]
      exact ⟨held', fun _ => ⟨rfl, trivial⟩,
        fun enough => absurd short (Nat.not_lt.mpr enough)⟩
    · obtain ⟨e, before, sink', log, moved, state, refused, ran, held'⟩ :=
        stop.copyTo_of_full_sink framed held (Nat.not_lt.mp short)
      simp only [r, ran, moved, state]
      exact ⟨held', fun lacks => absurd lacks short,
        fun _ => ⟨trivial, trivial, e, rfl, refused⟩⟩
  · intro prints prints' read written counted
    obtain ⟨outcome, metered⟩ :=
      copyTo_metered n (.intro read written source sink : Metered prints prints' _ _)
    obtain ⟨gain, gain', grown, grown', parts⟩ :=
      counts_of_copyTo framed held n prints prints' read written
    refine ⟨by rw [copyFrom_eq]; rfl, outcome, gain, gain', metered.eq_of_counts grown grown', ?_⟩
    rwa [outcome] at parts

/-- A piece refused after 64 bits, which the cursor has passed, and one that cannot be read. -/
theorem copy_stops_at_piece_either_side :
    let c : BitCursor := ⟨List.replicate 20 0xA7, 0, 160, 3⟩
    let full := copyTo 130 (.cursor c, (⟨.empty, 100⟩ : BoundedBitBuffer))
    let short := copyTo 160 (.cursor c, BitBuffer.empty)
    c.Reachable ∧
      (∃ e, full.outcome = .error (.write e)) ∧
      full.state.1 = .cursor { c with position := 131 } ∧
      SinkView.bounded.Holds full.state.2 (c.next 64) 36 ∧
      short.outcome = .error (.read (.outOfRange 131 32 160)) ∧
      short.state.1 = .cursor { c with position := 131 } ∧
      short.state.2.Represents (c.next 128) := by
  intro c full short
  have made : (BitCursor.openAt (List.replicate 20 0xA7) 3 ()).outcome = .value c := rfl
  have opened : (BitSource.cursor c).base.Reachable := .opened made
  have limited : SinkView.bounded.Holds ⟨.empty, 100⟩ [] (100 : ℕ) :=
    ⟨BitBuffer.empty_represents, by decide, rfl⟩
  have unlimited : SinkView.buffer.Holds .empty [] ⊤ := ⟨BitBuffer.empty_represents, rfl⟩
  have bound : reach (BitSource.cursor c).base.remaining (100 : ℕ) = 100 := reach_natCast 157 100
  have unbound : reach (BitSource.cursor c).base.remaining ⊤ = 157 := reach_top 157
  obtain ⟨-, -, beyond, -⟩ := copy_stops_at_piece SinkView.bounded opened limited 130
  obtain ⟨-, -, lacking, -⟩ := copy_stops_at_piece SinkView.buffer opened unlimited 160
  rw [bound] at beyond
  rw [unbound] at lacking
  obtain ⟨held, -, refused⟩ := beyond (by decide)
  obtain ⟨represents, unread, -⟩ := lacking (by decide)
  obtain ⟨behind, -, e, outcome, -⟩ := refused (by decide)
  obtain ⟨error, before⟩ := unread (by decide)
  exact ⟨opened, ⟨e, outcome⟩, behind, held, error, before, represents.1⟩

/-- Bits that are there are copied as they stand, from any place to any other, and a copy in two
parts is the copy of both. Asked of the buffer, a copy does the same. -/
theorem copy_moves_bits {c : BitCursor} (reached : c.Reachable)
    (commands : List BitBuffer.Command) :
    let b := BitBuffer.after commands
    let l := BitBuffer.bitsAfter commands
    (∀ n, copyFrom n (b, .cursor c) = (copyTo n (.cursor c, b)).mapState Prod.swap) ∧
    (∀ n, n ≤ c.remaining → ∃ b', (copyTo n (.cursor c, b)).outcome = .value () ∧
      (copyTo n (.cursor c, b)).state = (.cursor { c with position := c.position + n }, b') ∧
      b'.Represents (l ++ (c.visible.drop c.position).take n)) ∧
    ∀ m n, m + n ≤ c.remaining →
      let first := copyTo m (.cursor c, b)
      let second := copyTo n first.state
      first.outcome = .value () ∧ second.outcome = .value () ∧
        second.state = (copyTo (m + n) (.cursor c, b)).state := by
  intro b l
  have framed : (BitSource.cursor c).base.Framed := reached.framed
  have held : SinkView.buffer.Holds b l ⊤ := ⟨BitBuffer.after_represents commands, rfl⟩
  refine ⟨fun n => by rw [copyFrom_eq]; rfl, ?_, ?_⟩
  · intro n inside
    obtain ⟨b', log, ran, represents, -⟩ := copyTo_of_room framed held inside le_top
    exact ⟨b', by rw [ran], by rw [ran]; rfl, represents⟩
  · intro m n inside first second
    obtain ⟨b₁, log, ran₁, held₁⟩ :=
      copyTo_of_room framed held (show m ≤ c.remaining by omega) le_top
    have rest : n ≤ (BitSource.passed m (.cursor c)).base.remaining := by
      rw [BitSource.remaining_passed]
      change n ≤ c.remaining - m
      omega
    obtain ⟨b₂, log, ran₂, represents, -⟩ := copyTo_of_room
      (BitSource.framed_passed framed (show m ≤ c.remaining by omega)) held₁ rest le_top
    obtain ⟨b₃, log, ran, whole, -⟩ := copyTo_of_room framed held inside le_top
    -- Both ways the buffer holds the same bits, and bits make the buffer.
    rw [List.append_assoc, BitSource.base_passed, ← BitCursor.next_add] at represents
    simp only [second, first, ran₁, ran₂, ran, BitSource.passed_passed,
      represents.buffer_unique whole, true_and]

/-- Seventy bits from inside of a byte to inside of another, at once and in two parts. -/
theorem copy_moves_bits_recut :
    let c : BitCursor := ⟨List.replicate 10 0x5A, 0, 80, 4⟩
    let b := BitBuffer.after [.writeBits 5 3]
    c.Reachable ∧ 70 ≤ c.remaining ∧
      ∃ b', b'.Represents ([true, false, true] ++ (c.visible.drop 4).take 70) ∧
        (copyTo 70 (.cursor c, b)).state = (.cursor { c with position := 74 }, b') ∧
        (copyTo 67 (copyTo 3 (.cursor c, b)).state).state =
          (.cursor { c with position := 74 }, b') := by
  intro c b
  have made : (BitCursor.openAt (List.replicate 10 0x5A) 4 ()).outcome = .value c := rfl
  have reached : c.Reachable := .opened made
  have inside : 70 ≤ c.remaining := by decide
  obtain ⟨-, moved, parts⟩ := copy_moves_bits reached [.writeBits 5 3]
  obtain ⟨b', -, state, represents⟩ := moved 70 inside
  obtain ⟨-, -, same⟩ := parts 3 67 inside
  exact ⟨reached, inside, b', represents, state, same.trans state⟩

end BinaryStream
