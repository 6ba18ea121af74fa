import BinaryStream.ByteBuffer
import BinaryStream.Proofs.Run

/-!
A growing buffer as an array of bytes that is as long as needed. What a command does is said of the
bytes alone, byte by byte where it may write anywhere; it holds of every command whose end memory
can hold, so that sizes decide whether a run goes through.
-/
namespace BinaryStream.ByteBuffer

variable {ε : Type}

/-! One action each. -/

/-- A buffer as long as asked for stays as it is, whatever it would have been filled with. -/
theorem extendTo_of_le {size : Nat} (fill : UInt8) {b : ByteBuffer} (enough : size ≤ b.size) :
    (extendTo size fill : Action ByteBuffer ε Unit) b = ⟨.value (), b, []⟩ := by
  rw [extendTo, Action.get_bind_apply, if_neg (Nat.not_lt.mpr enough)]
  rfl

theorem extendTo_apply (size : Nat) (fill : UInt8) (b : ByteBuffer) :
    (extendTo size fill : Action ByteBuffer ε Unit) b =
      if size ≤ b.size ∨ size < Size.blockLimit then
        ⟨.value (), ⟨Bytes.padTo b.bytes size fill⟩, []⟩
      else ⟨.fault .capacity, b, []⟩ := by
  by_cases enough : size ≤ b.size
  · rw [extendTo_of_le fill enough, if_pos (.inl enough), Bytes.padTo_of_le enough]
  · simp only [extendTo, Action.get_bind_apply, Nat.not_le.mp enough, if_true, enough, false_or,
      resize]
    split <;> rfl

theorem extendTo_again (size : Nat) (fill other : UInt8) (b : ByteBuffer) :
    (extendTo size fill >>= fun _ => extendTo size other : Action ByteBuffer ε Unit) b =
      extendTo size fill b := by
  have first := extendTo_apply (ε := ε) size fill b
  split at first
  · have long : size ≤ ByteBuffer.size ⟨Bytes.padTo b.bytes size fill⟩ :=
      Bytes.le_length_padTo _ _ _
    rw [Action.bind_of_value first, extendTo_of_le other long, first]
    rfl
  · rw [Action.bind_apply, first]

theorem extendBy_apply {count : Nat} (fill : UInt8) {b : ByteBuffer}
    (room : b.size + count < Size.blockLimit) :
    (extendBy count fill : Action ByteBuffer ε Unit) b =
      ⟨.value (), ⟨Bytes.padTo b.bytes (b.size + count) fill⟩, []⟩ := by
  have word : b.size + count < Size.limit := Nat.lt_trans room (by decide)
  rw [extendBy, Action.get_bind_apply, Size.add?_eq_some_iff.mpr ⟨word, rfl⟩]
  simp [resize, room]

theorem write_apply (payload : List UInt8) (b : ByteBuffer) :
    (write payload : Action ByteBuffer ε Unit) b =
      if b.size + payload.length < Size.blockLimit then ⟨.value (), ⟨b.bytes ++ payload⟩, []⟩
      else ⟨.fault .capacity, b, []⟩ := by
  simp only [write, Action.get_bind_apply, resize]
  split <;> rfl

theorem put_apply (l : Layout) (value : l.Value) (b : ByteBuffer) :
    (put l value : Action ByteBuffer ε Unit) b =
      if b.size + l.size < Size.blockLimit then ⟨.value (), ⟨b.bytes ++ l.encode value⟩, []⟩
      else ⟨.fault .capacity, b, []⟩ := by
  rw [put, write_apply, l.length_encode]

/-- A write that memory can hold pads the buffer to the end of its range and overwrites the
range. -/
theorem writeAt_apply {offset : Nat} {payload : List UInt8} (b : ByteBuffer)
    (room : offset + payload.length < Size.blockLimit) :
    (writeAt offset payload : Action ByteBuffer ε Unit) b =
      ⟨.value (), ⟨Bytes.overwrite (Bytes.padTo b.bytes (offset + payload.length) 0)
        offset payload⟩, []⟩ := by
  have word : offset + payload.length < Size.limit := Nat.lt_trans room (by decide)
  have padded := extendTo_apply (ε := ε) (offset + payload.length) 0 b
  have inside := Bytes.le_length_padTo b.bytes (offset + payload.length) 0
  rw [if_pos (.inr room)] at padded
  rw [writeAt, Size.add?_eq_some_iff.mpr ⟨word, rfl⟩]
  simp [Action.bind_of_value padded, Bytes.store, inside, Reply.after]

theorem setByte_apply {index : Nat} (byte : UInt8) {b : ByteBuffer} (inside : index < b.size) :
    (setByte index byte : Action ByteBuffer ε Unit) b =
      ⟨.value (), ⟨b.bytes.set index byte⟩, []⟩ := by
  have stored : Bytes.store b.bytes index [byte] = .ok (b.bytes.set index byte) := by
    rw [Bytes.store, if_pos (by exact inside), Bytes.overwrite_singleton inside]
  simp [setByte, stored]

theorem writeParts_apply {parts : List String} {b : ByteBuffer}
    (room : b.size + (parts.flatMap Bytes.ofText).length < Size.blockLimit) :
    (writeParts parts : Action ByteBuffer ε Unit) b =
      ⟨.value (), ⟨b.bytes ++ parts.flatMap Bytes.ofText⟩, []⟩ := by
  induction parts generalizing b with
  | nil => simp [writeParts]
  | cons part rest ih =>
    simp only [List.flatMap_cons, List.length_append] at room ⊢
    have wrote := write_apply (ε := ε) (Bytes.ofText part) b
    rw [if_pos (by omega)] at wrote
    have left : ByteBuffer.size ⟨b.bytes ++ Bytes.ofText part⟩ +
        (rest.flatMap Bytes.ofText).length < Size.blockLimit := by
      simp only [size, List.length_append] at room ⊢
      omega
    rw [writeParts, writeText, Action.bind_of_value wrote, ih left]
    simp [Reply.after]

/-! Commands. -/

/-- Bytes before and after a write at `offset`. The new ones are as many as the write needs, with
the payload in its place, the old bytes around it and zeros in the gap before it. -/
structure Placed (old : List UInt8) (offset : Nat) (payload new : List UInt8) : Prop where
  length_eq : new.length = max old.length (offset + payload.length)
  payload_eq : ∀ i < payload.length, new[offset + i]? = payload[i]?
  kept : ∀ i < old.length, i < offset ∨ offset + payload.length ≤ i → new[i]? = old[i]?
  zeros : ∀ i < offset, old.length ≤ i → new[i]? = some 0

theorem placed (old : List UInt8) (offset : Nat) (payload : List UInt8) :
    Placed old offset payload
      (Bytes.overwrite (Bytes.padTo old (offset + payload.length) 0) offset payload) := by
  have inside := Bytes.le_length_padTo old (offset + payload.length) 0
  refine ⟨?_, ?_, ?_, ?_⟩
  · rw [Bytes.length_overwrite inside, Bytes.length_padTo]
  · intro i within
    rw [Bytes.getElem?_overwrite inside, if_pos (by omega), Nat.add_sub_cancel_left]
  · intro i before outside
    rw [Bytes.getElem?_overwrite inside, if_neg (by omega), Bytes.getElem?_padTo, if_pos before]
  · intro i gap new
    rw [Bytes.getElem?_overwrite inside, if_neg (by omega), Bytes.getElem?_padTo,
      if_neg (by omega), if_pos (by omega)]

namespace Command

/-- What the command makes of the bytes of a buffer. -/
def Does (old new : List UInt8) : Command → Prop
  | .write payload => new = old ++ payload
  | .put layout value => new = old ++ layout.encode value
  | .writeAt offset payload => Placed old offset payload new
  | .putAt layout offset value => Placed old offset (layout.encode value) new
  | .extendTo size fill => new = old ++ List.replicate (size - old.length) fill
  | .extendBy count fill => new = old ++ List.replicate count fill
  | .setByte index byte => new = old.set index byte
  | .reset => new = []
  | .writeText text => new = old ++ Bytes.ofText text
  | .writeParts parts => new = old ++ parts.flatMap Bytes.ofText

/-- Where the command ends in a buffer of `size` bytes. -/
def stop (size : Nat) : Command → Nat
  | .write payload => size + payload.length
  | .put layout value => size + (layout.encode value).length
  | .writeAt offset payload => offset + payload.length
  | .putAt layout offset value => offset + (layout.encode value).length
  | .extendTo stop _ => stop
  | .extendBy count _ => size + count
  | .setByte index _ => index + 1
  | .reset => 0
  | .writeText text => size + (Bytes.ofText text).length
  | .writeParts parts => size + (parts.flatMap Bytes.ofText).length

def sizeAfter (size : Nat) : Command → Nat
  | .reset => 0
  | command => max size (command.stop size)

/-- Memory can hold what the command makes of `size` bytes; a single byte is stored in place. -/
def Fits (size : Nat) : Command → Prop
  | .setByte index _ => index < size
  | command => command.stop size < Size.blockLimit

instance (size : Nat) : (command : Command) → Decidable (command.Fits size)
  | .setByte index _ => inferInstanceAs (Decidable (index < size))
  | .write .. | .put .. | .writeAt .. | .putAt .. | .extendTo .. | .extendBy .. | .reset
  | .writeText .. | .writeParts .. => inferInstanceAs (Decidable (_ < Size.blockLimit))

/-- A command that fits does what it says, and so its size can be told before. -/
theorem run_does {command : Command} {b : ByteBuffer} (fits : command.Fits b.size) :
    ∃ b', command.run b = ⟨.value (), b', []⟩ ∧ command.Does b.bytes b'.bytes ∧
      b'.size = command.sizeAfter b.size := by
  cases command with
  | write payload =>
    refine ⟨_, (write_apply payload b).trans (if_pos fits), rfl, ?_⟩
    simp [size, sizeAfter, stop]
  | put layout value =>
    refine ⟨_, (write_apply (layout.encode value) b).trans (if_pos fits), rfl, ?_⟩
    simp [size, sizeAfter, stop]
  | writeText text =>
    refine ⟨_, (write_apply (Bytes.ofText text) b).trans (if_pos fits), rfl, ?_⟩
    simp [size, sizeAfter, stop]
  | writeParts parts =>
    refine ⟨_, writeParts_apply fits, rfl, ?_⟩
    simp [size, sizeAfter, stop]
  | writeAt offset payload =>
    have made := placed b.bytes offset payload
    exact ⟨_, writeAt_apply b fits, made, made.length_eq⟩
  | putAt layout offset value =>
    have made := placed b.bytes offset (layout.encode value)
    exact ⟨_, writeAt_apply b fits, made, made.length_eq⟩
  | extendTo stop fill =>
    exact ⟨_, (extendTo_apply stop fill b).trans (if_pos (.inr fits)), rfl,
      Bytes.length_padTo _ _ _⟩
  | extendBy count fill =>
    refine ⟨_, extendBy_apply fill fits, ?_, Bytes.length_padTo _ _ _⟩
    simp [Does, Bytes.padTo, size]
  | setByte index byte =>
    refine ⟨_, setByte_apply byte fits, rfl, ?_⟩
    have inside : index < b.bytes.length := fits
    simp only [size, List.length_set, sizeAfter, stop]
    omega
  | reset => exact ⟨_, rfl, rfl, rfl⟩

end Command

/-- Each command of the run fits the size that those before it lead to. -/
def RunFits : Nat → List Command → Prop
  | _, [] => True
  | size, command :: commands => command.Fits size ∧ RunFits (command.sizeAfter size) commands

instance : (size : Nat) → (commands : List Command) → Decidable (RunFits size commands)
  | _, [] => inferInstanceAs (Decidable True)
  | size, command :: commands =>
    have : Decidable (RunFits (command.sizeAfter size) commands) := instDecidableRunFits _ _
    inferInstanceAs (Decidable (command.Fits size ∧ RunFits (command.sizeAfter size) commands))

theorem fits_after {before rest : List Command} {b : ByteBuffer}
    (fits : RunFits b.size (before ++ rest)) :
    RunFits (Action.execute Command.run before b).size rest := by
  induction before generalizing b with
  | nil => exact fits
  | cons command before ih =>
    obtain ⟨first, others⟩ := fits
    obtain ⟨b', ran, -, size⟩ := Command.run_does first
    rw [Action.execute, ran]
    exact ih (size ▸ others)

/-- In a run whose ends memory can hold, from any buffer, every command is carried out and does to
the bytes what it says, whatever came before it; only `reset` leaves fewer of them. Filling by a
count is filling up to the size it leads to, and filling up to the same size again changes nothing.
-/
theorem fitting_run_does (b : ByteBuffer) (before : List Command) (command : Command)
    (rest : List Command) (fits : RunFits b.size (before ++ command :: rest)) :
    let s := Action.execute Command.run before b
    let r := command.run s
    r.outcome = .value () ∧ command.Does s.bytes r.state.bytes ∧
      r.state.size = command.sizeAfter s.size ∧ (command ≠ .reset → s.size ≤ r.state.size) ∧
      (∀ count fill, s.size + count < Size.blockLimit →
        (extendBy count fill : Action ByteBuffer Empty Unit) s =
          extendTo (s.size + count) fill s) ∧
      ∀ size fill other,
        (extendTo size fill >>= fun _ => extendTo size other : Action ByteBuffer Empty Unit) s =
          extendTo size fill s := by
  intro s r
  obtain ⟨now, -⟩ : RunFits s.size (command :: rest) := fits_after fits
  obtain ⟨b', ran, does, grown⟩ := Command.run_does now
  have state : r.state = b' := congrArg Reply.state ran
  refine ⟨congrArg Reply.outcome ran, state ▸ does, state ▸ grown, ?_, ?_, ?_⟩
  · intro kept
    rw [state, grown]
    cases command with
    | reset => exact absurd rfl kept
    | _ => exact Nat.le_max_left _ _
  · intro count fill room
    rw [extendBy_apply fill room, extendTo_apply, if_pos (.inr room)]
  · intro size fill other
    exact extendTo_again size fill other s

/-- After a write over a gap, a store and a fill: an empty write behind the end leaves zeros. -/
theorem fitting_run_does_gapped :
    let before : List Command := [.writeAt 5 [9], .setByte 0 7, .extendBy 1 0xAA]
    let s := Action.execute Command.run before ⟨[1, 2]⟩
    let r := (Command.writeAt 9 []).run s
    RunFits 2 (before ++ [.writeAt 9 [], .reset]) ∧ r.outcome = .value () ∧
      s.bytes = [7, 2, 0, 0, 0, 9, 0xAA] ∧ r.state.size = 9 ∧ r.state.bytes[8]? = some 0 := by
  intro before s r
  have fits : RunFits 2 (before ++ [.writeAt 9 [], .reset]) := by decide
  obtain ⟨outcome, placed, size, -⟩ :=
    fitting_run_does ⟨[1, 2]⟩ before (.writeAt 9 []) [.reset] fits
  have bytes : s.bytes = [7, 2, 0, 0, 0, 9, 0xAA] := by decide
  have short : s.bytes.length ≤ 8 := by decide
  exact ⟨fits, outcome, bytes, size, placed.zeros 8 (by decide) short⟩

end BinaryStream.ByteBuffer
