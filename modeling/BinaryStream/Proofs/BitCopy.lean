import BinaryStream.BitCopy
import BinaryStream.Proofs.BitCursor.Tape

/-!
Copies of bits. A copy asked of the sink is the copy asked of the source, what reads and writes keep
between two sides a copy keeps, and from cursors that show the same bits the same is copied. All are
inductions on what is left to copy, in the pieces that the copy itself makes.
-/
namespace BinaryStream

variable {τ ε : Type} [BitSink τ ε]

theorem copyTo_swap (n : Nat) (source : BitSource) (sink : τ) :
    Reply.Related Eq (fun s t => t = s.swap) (copyTo n (source, sink))
      (copyFrom n (sink, source)) := by
  induction n using Nat.strongRecOn generalizing source sink with
  | ind n ih =>
    rw [copyTo, copyFrom]
    by_cases done : n = 0
    · rw [if_pos done, if_pos done]
      exact ⟨.refl _, rfl, rfl⟩
    · rw [if_neg done, if_neg done]
      refine .bind (.mapError _ ⟨.refl _, rfl, rfl⟩) ?_
      rintro value _ ⟨source, sink⟩ _ rfl rfl
      refine .bind (.mapError _ ⟨.refl _, rfl, rfl⟩) ?_
      rintro _ _ ⟨source, sink⟩ _ rfl rfl
      exact ih (n - min n 64) (by omega) source sink

/-- Asked of the sink, a copy is the one asked of the source. -/
theorem copyFrom_eq (n : Nat) :
    (copyFrom n : Action (τ × BitSource) (CopyError ε) Unit) =
      fun p => (copyTo n p.swap).mapState Prod.swap := by
  funext ⟨sink, source⟩
  obtain ⟨outcomes, logs, states⟩ := copyTo_swap n source sink
  exact (Reply.mk.injEq ..).mpr ⟨outcomes.eq.symm, states, logs.symm⟩

/-- Copies in progress whose sources are related and whose sinks are. -/
structure Beside {τ' : Type} (sources : BitSource → BitSource → Prop) (sinks : τ → τ' → Prop)
    (p : BitSource × τ) (p' : BitSource × τ') : Prop where
  source : sources p.1 p'.1
  sink : sinks p.2 p'.2

/-- Copies go alike when the reads of their sources do and the writes to their sinks. -/
theorem copyTo_mirrors {τ' : Type} [BitSink τ' ε] {sources : BitSource → BitSource → Prop}
    {sinks : τ → τ' → Prop}
    (read : ∀ {s t}, sources s t → ∀ n, Reply.Mirrors sources (s.readBits n) (t.readBits n))
    (write : ∀ {x y}, sinks x y → ∀ value n,
      Reply.Mirrors sinks (BitSink.writeBits value n x) (BitSink.writeBits value n y))
    (n : Nat) {p : BitSource × τ} {p' : BitSource × τ'} (beside : Beside sources sinks p p') :
    Reply.Mirrors (Beside sources sinks) (copyTo n p) (copyTo n p') := by
  induction n using Nat.strongRecOn generalizing p p' with
  | ind n ih =>
    rw [copyTo, copyTo]
    by_cases done : n = 0
    · rw [if_pos done, if_pos done]
      exact ⟨rfl, beside⟩
    · rw [if_neg done, if_neg done]
      obtain ⟨outcome, next⟩ := read beside.source (min n 64)
      refine .bind (.mapError _ ⟨outcome, next, beside.sink⟩) ?_
      intro value p p' beside
      obtain ⟨outcome, next⟩ := write beside.sink value (min n 64)
      refine .bind (.mapError _ ⟨outcome, beside.source, next⟩) ?_
      intro _ p p' beside
      exact ih (n - min n 64) (by omega) beside

/-- Copies in progress, to the same sink from cursors that show the same. -/
inductive CopiesAlike : BitSource × τ → BitSource × τ → Prop where
  | intro {c d : BitCursor} (same : BitCursor.Alike c d) (sink : τ) :
    CopiesAlike (.cursor c, sink) (.cursor d, sink)

theorem CopiesAlike.base {s t : BitSource × τ} (copies : CopiesAlike s t) :
    BitCursor.Alike s.1.base t.1.base ∧ s.2 = t.2 := by
  obtain ⟨same, sink⟩ := copies
  exact ⟨same, rfl⟩

theorem copyTo_alike (n : Nat) {s t : BitSource × τ} (same : CopiesAlike s t) :
    Reply.Related Eq CopiesAlike (copyTo n s) (copyTo n t) := by
  induction n using Nat.strongRecOn generalizing s t with
  | ind n ih =>
    rw [copyTo]
    by_cases done : n = 0
    · rw [if_pos done]
      exact ⟨.refl _, rfl, same⟩
    · rw [if_neg done]
      obtain ⟨same, sink⟩ := same
      have read := same.read (min n 64)
      refine .bind (.mapError _ ⟨read.outcome, read.events_eq, .intro read.state sink⟩) ?_
      rintro value _ _ _ rfl ⟨same, sink⟩
      refine .bind (.mapError _ ⟨.refl _, rfl, .intro same _⟩) ?_
      intro _ _ s t _ same
      exact ih (n - min n 64) (by omega) same

end BinaryStream
