import Mathlib.Data.ENat.Basic
import BinaryStream.BitSink
import BinaryStream.Proofs.BitBuffer

/-!
Sinks as lists of bits with room for more of them, or for any number. Whoever writes to a sink needs
no more than that: a field that finds room is appended whole, and one that does not is refused and
leaves nothing behind. Buffers, bounded buffers and counting sinks are such lists. Whoever only adds
up what is taken needs less: that a write is taken whole or not at all.
-/
namespace BinaryStream

/-- How many bits a write tells that it took. -/
def Outcome.taken {ε : Type} : Outcome ε Nat → Nat
  | .value n => n
  | .error _ | .fault _ => 0

theorem Outcome.taken_of_not_value {ε : Type} {o : Outcome ε Nat} (failed : ∀ n, o ≠ .value n) :
    o.taken = 0 := by
  cases o with
  | value n => exact absurd rfl (failed n)
  | error e => rfl
  | fault f => rfl

/-- A count around a sink changes neither what comes of a write nor what is left, and it grows by
what was taken. -/
theorem CountedSink.writeBits_inner {τ ε : Type} [BitSink τ ε] (value : UInt64) (n : Nat)
    (s : CountedSink τ) :
    let r := BitSink.writeBits value n s.inner
    (BitSink.writeBits value n s).outcome = r.outcome ∧
      (BitSink.writeBits value n s).state = ⟨r.state, s.count + r.outcome.taken, s.prints⟩ := by
  intro r
  change (CountedSink.writeBits value n s).outcome = _ ∧ (CountedSink.writeBits value n s).state = _
  rw [CountedSink.writeBits, show BitSink.writeBits value n s.inner = r from rfl]
  obtain ⟨outcome, inner, log⟩ := r
  cases outcome <;> exact ⟨rfl, rfl⟩

/-- A sink that takes all bits of a write and tells so, or fails and takes none. -/
structure Appends (τ ε : Type) [BitSink τ ε] (size : τ → Nat) (Valid : τ → Prop) : Prop where
  write {t : τ} (valid : Valid t) (value : UInt64) (n : Nat) :
    let r := BitSink.writeBits value n t
    Valid r.state ∧ ((r.outcome = .value n ∧ size r.state = size t + n) ∨
      ((∀ taken, r.outcome ≠ .value taken) ∧ size r.state = size t))

namespace BitBuffer

/-- The buffers that hold some bits. -/
def Holding (b : BitBuffer) : Prop := ∃ l, b.Represents l

variable {b : BitBuffer}

theorem Holding.writeBits (ε : Type) (held : b.Holding) (value : UInt64) {n : Nat}
    (narrow : n ≤ 64) :
    ∃ b', (BitBuffer.writeBits value n : Action BitBuffer ε Unit) b = ⟨.value (), b', []⟩ ∧
      b'.Holding ∧ b'.size = b.size + n := by
  obtain ⟨l, held⟩ := held
  obtain ⟨b', wrote, held'⟩ := writeBits_represents ε held value narrow
  refine ⟨b', wrote, ⟨_, held'⟩, ?_⟩
  rw [held'.size_eq, held.size_eq, List.length_append, length_field]

theorem appends : Appends BitBuffer Empty size Holding where
  write {b} held value n := by
    by_cases wide : 64 < n
    · have refused := writeBits_of_wide (ε := Empty) (b := b) value wide
      simp only [BitSink.writeBits, Action.bind_pure_apply, refused]
      exact ⟨held, .inr ⟨nofun, trivial⟩⟩
    · obtain ⟨b', wrote, held', grown⟩ := held.writeBits Empty value (Nat.not_lt.mp wide)
      simp only [BitSink.writeBits, Action.bind_pure_apply, wrote]
      exact ⟨held', .inl ⟨rfl, grown⟩⟩

end BitBuffer

namespace BoundedBitBuffer

theorem writeBits_apply (value : UInt64) (n : Nat) (b : BoundedBitBuffer) :
    BitSink.writeBits value n b =
      if b.limit < b.buffer.size + n then ⟨.error (.outOfRange b.buffer.size n b.limit), b, []⟩
      else
        let r : Reply BitBuffer AccessError Unit := BitBuffer.writeBits value n b.buffer
        ⟨r.outcome.map fun _ => n, ⟨r.state, b.limit⟩, r.events⟩ := by
  by_cases full : b.limit < b.buffer.size + n
  · simp [BitSink.writeBits, BoundedBitBuffer.writeBits, full, Action.fail]
  · simp [BitSink.writeBits, BoundedBitBuffer.writeBits, full]

theorem appends :
    Appends BoundedBitBuffer AccessError (fun b => b.buffer.size) (fun b => b.buffer.Holding) where
  write {b} held value n := by
    rw [writeBits_apply]
    by_cases full : b.limit < b.buffer.size + n
    · rw [if_pos full]
      exact ⟨held, .inr ⟨nofun, rfl⟩⟩
    · rw [if_neg full]
      by_cases wide : 64 < n
      · rw [BitBuffer.writeBits_of_wide value wide]
        exact ⟨held, .inr ⟨nofun, rfl⟩⟩
      · obtain ⟨b', wrote, held', grown⟩ := held.writeBits AccessError value (Nat.not_lt.mp wide)
        rw [wrote]
        exact ⟨held', .inl ⟨rfl, grown⟩⟩

end BoundedBitBuffer

theorem CountedSink.appends {τ ε : Type} [BitSink τ ε] {size : τ → Nat} {Valid : τ → Prop}
    (h : Appends τ ε size Valid) :
    Appends (CountedSink τ) ε (fun s => size s.inner) (fun s => Valid s.inner) where
  write {s} valid value n := by
    obtain ⟨outcome, state⟩ := writeBits_inner value n s
    have inner := h.write valid value n
    simp only [outcome, state]
    exact inner

/-- A reading of a sink's states: the bits that were taken and the room that is left. -/
structure SinkView (τ ε : Type) [BitSink τ ε] where
  Holds : τ → List Bool → ℕ∞ → Prop
  write_of_room {t : τ} {l : List Bool} {room : ℕ∞} (held : Holds t l room) (value : UInt64)
    {count : Nat} (narrow : count ≤ 64) (fits : count ≤ room) :
    ∃ t' log, BitSink.writeBits value count t = ⟨.value count, t', log⟩ ∧
      Holds t' (l ++ field value.toNat count) (room - count)
  write_of_no_room {t : τ} {l : List Bool} {room : ℕ∞} (held : Holds t l room) (value : UInt64)
    {count : Nat} (narrow : count ≤ 64) (full : room < count) :
    ∃ e t' log, BitSink.writeBits value count t = ⟨.error e, t', log⟩ ∧ Holds t' l room

namespace SinkView

/-- A buffer has room for any number of bits. -/
def buffer : SinkView BitBuffer Empty where
  Holds b l room := b.Represents l ∧ room = ⊤
  write_of_room := by
    rintro b l _ ⟨represents, rfl⟩ value count narrow -
    obtain ⟨b', wrote, held⟩ := BitBuffer.writeBits_represents Empty represents value narrow
    exact ⟨b', _, Action.bind_of_value wrote, held, ENat.top_sub_natCast count⟩
  write_of_no_room := by
    rintro b l _ ⟨-, rfl⟩ value count - full
    exact absurd full not_top_lt

/-- A bounded buffer has room up to its limit, which it has not passed. -/
def bounded : SinkView BoundedBitBuffer AccessError where
  Holds b l room :=
    b.buffer.Represents l ∧ l.length ≤ b.limit ∧ room = ((b.limit - l.length : ℕ) : ℕ∞)
  write_of_room := by
    rintro ⟨b, limit⟩ l _ ⟨represents, below, rfl⟩ value count narrow fits
    obtain ⟨b', wrote, held⟩ := BitBuffer.writeBits_represents AccessError represents value narrow
    have size : b.size = l.length := represents.size_eq
    have inside : count ≤ limit - l.length := by exact_mod_cast fits
    have free : ¬ limit < b.size + count := by
      simp only at below
      omega
    refine ⟨⟨b', limit⟩, [], ?_, held, ?_, ?_⟩
    · rw [BoundedBitBuffer.writeBits_apply, if_neg free, wrote]
      rfl
    · simp only [List.length_append, length_field] at below ⊢
      omega
    · simp only [List.length_append, length_field, ← Nat.sub_sub]
      exact_mod_cast rfl
  write_of_no_room := by
    rintro ⟨b, limit⟩ l _ held value count narrow full
    have size : b.size = l.length := held.1.size_eq
    have room := held.2.2
    rw [room] at full
    have outside : limit < b.size + count := by
      have : limit - l.length < count := by exact_mod_cast full
      omega
    refine ⟨.outOfRange b.size count limit, ⟨b, limit⟩, [], ?_, held⟩
    rw [BoundedBitBuffer.writeBits_apply, if_pos outside]

/-- A counting sink holds what the sink inside holds; its total was `first` when that was `before`.
-/
def counted {τ ε : Type} [BitSink τ ε] (view : SinkView τ ε) (before : List Bool) (first : Nat) :
    SinkView (CountedSink τ) ε where
  Holds s l room := view.Holds s.inner l room ∧ s.count + before.length = first + l.length
  write_of_room := by
    rintro s l room ⟨held, total⟩ value count narrow fits
    obtain ⟨inner, log, wrote, next⟩ := view.write_of_room held value narrow fits
    have ran : ∃ log, BitSink.writeBits value count s =
        ⟨.value count, ⟨inner, s.count + count, s.prints⟩, log⟩ :=
      ⟨_, by simp only [BitSink.writeBits, CountedSink.writeBits] at wrote ⊢; rw [wrote]⟩
    obtain ⟨log, ran⟩ := ran
    refine ⟨_, log, ran, next, ?_⟩
    simp only [List.length_append, length_field]
    omega
  write_of_no_room := by
    rintro s l room ⟨held, total⟩ value count narrow full
    obtain ⟨e, inner, log, wrote, next⟩ := view.write_of_no_room held value narrow full
    refine ⟨e, { s with inner }, log, ?_, next, total⟩
    simp only [BitSink.writeBits, CountedSink.writeBits] at wrote ⊢
    rw [wrote]
    rfl

end SinkView

end BinaryStream
