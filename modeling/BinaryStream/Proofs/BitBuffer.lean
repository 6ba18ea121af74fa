import BinaryStream.BitBuffer
import BinaryStream.Proofs.BitList
import BinaryStream.Proofs.Run

/-!
A bit buffer is an append-only list of bits. `Represents` ties the two: the buffer's bytes hold the
bits and then zeros, fewer than eight, whose number the buffer knows. Every command keeps it, so a
buffer's bytes and its unset count are functions of the bits alone.
-/
namespace BinaryStream

open Bytes

/-! Bits of one byte. -/

/-- A piece put over zeros stands between the bits above it and the zeros below it. -/
theorem field_or_shiftLeft {x piece : UInt8} {taken share rest : Nat}
    (whole : taken + (share + rest) = 8) (some : 0 < share)
    (zeros : field x.toNat (share + rest) = List.replicate (share + rest) false)
    (small : piece.toNat < 2 ^ share) :
    field (x ||| piece <<< UInt8.ofNat rest).toNat 8 =
      (field x.toNat 8).take taken ++ field piece.toNat share ++ List.replicate rest false := by
  have high : ∀ i, share ≤ i → piece.toNat.testBit i = false := by
    intro i outside
    exact Nat.testBit_lt_two_pow
      (Nat.lt_of_lt_of_le small (Nat.pow_le_pow_right (by omega) outside))
  have amount : (UInt8.ofNat rest).toNat % 8 = rest := by
    rw [UInt8.toNat_ofNat']
    omega
  have bit : ∀ i, i < 8 → (x ||| piece <<< UInt8.ofNat rest).toNat.testBit i =
      (x.toNat.testBit i || (decide (rest ≤ i) && piece.toNat.testBit (i - rest))) := by
    intro i inside
    rw [UInt8.toNat_or, Nat.testBit_or, UInt8.toNat_shiftLeft, amount, Nat.testBit_mod_two_pow,
      Nat.testBit_shiftLeft]
    simp [inside]
  rw [← whole, field_add, field_add, field_take, List.append_assoc]
  congr 1
  · apply field_congr
    intro i inside
    rw [Nat.testBit_shiftRight, bit _ (by omega), Nat.testBit_shiftRight, high _ (by omega),
      Bool.and_false, Bool.or_false]
  · congr 1
    · apply field_congr
      intro i inside
      rw [Nat.testBit_shiftRight, bit _ (by omega), testBit_of_field_eq_zeros zeros (by omega)]
      simp
    · rw [← field_zero_eq_replicate]
      apply field_congr
      intro i inside
      rw [bit _ (by omega), testBit_of_field_eq_zeros zeros (by omega)]
      simp [Nat.not_le.mpr inside]

theorem field_and_mask {x : UInt8} {kept rest : Nat} (whole : kept + rest = 8) (some : 0 < kept) :
    field (x &&& 0xFF <<< UInt8.ofNat rest).toNat 8 =
      (field x.toNat 8).take kept ++ List.replicate rest false := by
  have amount : (UInt8.ofNat rest).toNat % 8 = rest := by
    rw [UInt8.toNat_ofNat']
    omega
  have bit : ∀ i, i < 8 → (x &&& 0xFF <<< UInt8.ofNat rest).toNat.testBit i =
      (x.toNat.testBit i && decide (rest ≤ i)) := by
    intro i inside
    have ones : (0xFF : UInt8).toNat = 2 ^ 8 - 1 := rfl
    have below : i - rest < 8 := by omega
    rw [UInt8.toNat_and, Nat.testBit_and, UInt8.toNat_shiftLeft, amount, Nat.testBit_mod_two_pow,
      Nat.testBit_shiftLeft, ones, Nat.testBit_two_pow_sub_one]
    simp [inside, below]
  rw [← whole, field_add, field_take]
  congr 1
  · apply field_congr
    intro i inside
    rw [Nat.testBit_shiftRight, bit _ (by omega), Nat.testBit_shiftRight]
    simp
  · rw [← field_zero_eq_replicate]
    apply field_congr
    intro i inside
    rw [bit _ (by omega)]
    simp [inside]

theorem mapLast_concat (f : UInt8 → UInt8) (front : List UInt8) (last : UInt8) :
    mapLast f (front ++ [last]) = front ++ [f last] := by
  induction front with
  | nil => rfl
  | cons b front ih =>
    cases front with
    | nil => rfl
    | cons next front => simpa [mapLast] using ih

namespace BitBuffer

/-- The buffer holds these bits and nothing else. -/
structure Represents (b : BitBuffer) (l : List Bool) : Prop where
  unset_lt : b.unset < 8
  bits_eq : bits b.data = l ++ List.replicate b.unset false

variable {b : BitBuffer} {l : List Bool}

theorem empty_represents : Represents empty [] := ⟨by decide, rfl⟩

theorem Represents.length_eq (h : Represents b l) : 8 * b.data.length = l.length + b.unset := by
  have := congrArg List.length h.bits_eq
  simpa using this

theorem Represents.size_eq (h : Represents b l) : b.size = l.length := by
  have := h.length_eq
  unfold size
  omega

theorem Represents.bits_unique {l' : List Bool} (h : Represents b l) (h' : Represents b l') :
    l = l' := by
  have same := h.bits_eq.symm.trans h'.bits_eq
  exact List.append_cancel_right same

theorem Represents.buffer_unique {b' : BitBuffer} (h : Represents b l) (h' : Represents b' l) :
    b = b' := by
  have unset : b.unset = b'.unset := by
    have := h.length_eq
    have := h'.length_eq
    have := h.unset_lt
    have := h'.unset_lt
    omega
  have data : b.data = b'.data := bits_injective (by rw [h.bits_eq, h'.bits_eq, unset])
  cases b
  cases b'
  cases unset
  cases data
  rfl

/-- A buffer opened for writing ends in a byte whose low bits are free, at least one of them. -/
structure Opened (b : BitBuffer) (l : List Bool) (front : List UInt8) (last : UInt8) : Prop where
  some_unset : 0 < b.unset
  unset_le : b.unset ≤ 8
  data_eq : b.data = front ++ [last]
  bits_eq : l = bits front ++ (field last.toNat 8).take (8 - b.unset)
  zeros : field last.toNat b.unset = List.replicate b.unset false

theorem Represents.opened (h : Represents b l) :
    ∃ front last, Opened b.opened l front last := by
  unfold BitBuffer.opened
  split
  · rename_i full
    refine ⟨b.data, 0, Nat.zero_lt_succ 7, Nat.le_refl 8, rfl, ?_, by simp⟩
    rw [h.bits_eq, full]
    simp
  · rename_i free
    have low := h.unset_lt
    have len := h.length_eq
    have nonempty : b.data ≠ [] := by
      intro none
      rw [none] at len
      simp only [List.length_nil] at len
      omega
    obtain ⟨front, last, parts⟩ : ∃ front last, b.data = front ++ [last] :=
      ⟨_, _, (List.dropLast_concat_getLast nonempty).symm⟩
    -- The last byte is cut where the written bits end; what is below is the padding.
    have whole : 8 = (8 - b.unset) + b.unset := by omega
    have cut := h.bits_eq
    rw [parts, bits_append, bits_cons, bits_nil, List.append_nil, whole, field_add,
      ← List.append_assoc] at cut
    obtain ⟨upper, zeros⟩ := List.append_inj' cut (by simp)
    refine ⟨front, last, by omega, by omega, parts, ?_, zeros⟩
    have kept : (field last.toNat 8).take (8 - b.unset) =
        field (last.toNat >>> b.unset) (8 - b.unset) := by
      rw [← field_take, ← whole]
    rw [← upper, kept]

end BitBuffer

namespace Scatter

theorem toNat_power {n : Nat} (less : n < 64) :
    ((1 : UInt64) <<< UInt64.ofNat n).toNat = 2 ^ n := by
  have amount : (UInt64.ofNat n).toNat % 64 = n := by
    rw [UInt64.toNat_ofNat']
    omega
  rw [UInt64.toNat_shiftLeft, amount, UInt64.toNat_one, Nat.one_shiftLeft]
  exact Nat.mod_eq_of_lt (Nat.pow_lt_pow_right (by decide) less)

theorem toNat_piece (value : UInt64) {share left : Nat} (thin : share ≤ 8) (narrow : left < 64) :
    (value >>> UInt64.ofNat left &&& ((1 : UInt64) <<< UInt64.ofNat share - 1)).toUInt8.toNat =
      (value.toNat >>> left) % 2 ^ share := by
  have power : 2 ^ share ≤ 2 ^ 8 := Nat.pow_le_pow_right (by omega) thin
  have one := toNat_power (show share < 64 by omega)
  have mask : ((1 : UInt64) <<< UInt64.ofNat share - 1).toNat = 2 ^ share - 1 := by
    have le : 1 ≤ (1 : UInt64) <<< UInt64.ofNat share := by
      rw [UInt64.le_iff_toNat_le, one]
      exact Nat.two_pow_pos _
    rw [UInt64.toNat_sub_of_le _ _ le, one]
    rfl
  have shift : (UInt64.ofNat left).toNat % 64 = left := by
    rw [UInt64.toNat_ofNat']
    omega
  rw [UInt64.toNat_toUInt8, UInt64.toNat_and, mask, UInt64.toNat_shiftRight, shift,
    Nat.and_two_pow_sub_one_eq_mod]
  exact Nat.mod_eq_of_lt (Nat.lt_of_lt_of_le (Nat.mod_lt _ (Nat.two_pow_pos _)) power)

open BitBuffer

/-- One piece appends the next bits of the field. -/
theorem step_represents {s : Scatter} {l : List Bool} (value : UInt64)
    (holds : Represents s.buffer l) (more : s.left ≠ 0) (narrow : s.left ≤ 64) :
    ∃ next, s.step value = .ok next ∧ next.left = s.left - s.share ∧
      Represents next.buffer (l ++ field (value.toNat >>> next.left) s.share) := by
  obtain ⟨front, last, opened⟩ := holds.opened
  have some := share_pos more
  have room : s.share ≤ s.buffer.opened.unset := Nat.min_le_left _ _
  have part : s.share ≤ s.left := Nat.min_le_right _ _
  have unset_le := opened.unset_le
  have nonempty : s.buffer.opened.data.isEmpty = false := by simp [opened.data_eq]
  unfold step
  simp only [nonempty, Bool.false_eq_true, ↓reduceIte, Except.ok.injEq, exists_eq_left', true_and]
  have thin : s.share ≤ 8 := by omega
  have below : s.left - s.share < 64 := by omega
  have piece := toNat_piece value thin below
  have whole : 8 - s.buffer.opened.unset +
      (s.share + (s.buffer.opened.unset - s.share)) = 8 := by omega
  have free : s.share + (s.buffer.opened.unset - s.share) = s.buffer.opened.unset := by omega
  have fewer : s.buffer.opened.unset - s.share < 8 := by omega
  refine ⟨fewer, ?_⟩
  rw [opened.data_eq, mapLast_concat, bits_append, bits_cons, bits_nil, List.append_nil,
    field_or_shiftLeft whole some _ _, piece, field_mod, opened.bits_eq]
  · simp only [List.append_assoc]
  · rw [free]
    exact opened.zeros
  · rw [piece]
    exact Nat.mod_lt _ (Nat.two_pow_pos _)

theorem run_of_left_eq_zero {s : Scatter} (value : UInt64) (done : s.left = 0) :
    s.run value = .ok s.buffer := by
  rw [run, dif_pos done]

theorem run_of_step {s next : Scatter} {value : UInt64} (more : s.left ≠ 0)
    (h : s.step value = .ok next) : s.run value = next.run value := by
  rw [run, dif_neg more]
  split
  · rename_i f hf
    rw [h] at hf
    cases hf
  · rename_i next' hn
    rw [h] at hn
    cases hn
    rfl

theorem run_represents (value : UInt64) {s : Scatter} {l : List Bool}
    (holds : Represents s.buffer l) (narrow : s.left ≤ 64) :
    ∃ b, s.run value = .ok b ∧ Represents b (l ++ field value.toNat s.left) := by
  induction left : s.left using Nat.strongRecOn generalizing s l with
  | ind n ih =>
    by_cases done : n = 0
    · refine ⟨s.buffer, run_of_left_eq_zero value (by omega), ?_⟩
      simpa [done, field] using holds
    · have more : s.left ≠ 0 := by omega
      obtain ⟨next, taken, rest, held⟩ := step_represents value holds more narrow
      have shorter := step_left_lt more taken
      -- The piece is the upper part of what was left of the field, and the rest its lower part.
      obtain ⟨b, ran, result⟩ := ih next.left (by omega) held (by omega) rfl
      refine ⟨b, (run_of_step more taken).trans ran, ?_⟩
      have part : s.share ≤ s.left := Nat.min_le_right _ _
      have total : s.share + next.left = n := by omega
      rwa [List.append_assoc, ← field_add, total] at result

end Scatter

namespace BitBuffer

variable {b : BitBuffer} {l : List Bool}

/-- Keeping bits drops whole bytes and clears what is left below the last bit. -/
theorem keep_represents (h : Represents b l) {n : Nat} (inside : n ≤ l.length) :
    Represents (b.keep n) (l.take n) := by
  have len := h.length_eq
  have few : (n + 7) / 8 * 8 - n < 8 := by omega
  refine ⟨few, ?_⟩
  have stay : (bits b.data).take n = l.take n := by
    rw [h.bits_eq, List.take_append_of_le_length inside]
  unfold keep
  rcases Nat.eq_zero_or_pos n with rfl | some
  · simp [mapLast]
  obtain ⟨count, bytes⟩ : ∃ count, (n + 7) / 8 = count + 1 := ⟨(n + 7) / 8 - 1, by omega⟩
  have last : b.data.take (count + 1) = b.data.take count ++ [b.data[count]] :=
    List.take_succ_eq_append_getElem (by omega)
  have parts : n - 8 * count + ((count + 1) * 8 - n) = 8 := by omega
  -- Only the last byte kept changes, so the bits before it stay and its own are masked.
  simp only [bytes]
  rw [last, mapLast_concat, bits_append, bits_cons, bits_nil, List.append_nil,
    field_and_mask parts (by omega), ← List.append_assoc, ← stay]
  congr 1
  have whole : bits (b.data.take (count + 1)) =
      bits (b.data.take count) ++ field b.data[count].toNat 8 := by
    rw [last, bits_append, bits_cons, bits_nil, List.append_nil]
  have front : (bits (b.data.take count)).length = 8 * count := by
    rw [length_bits, List.length_take_of_le (by omega)]
  have below : (bits (b.data.take count)).length ≤ n := by omega
  calc bits (b.data.take count) ++ (field b.data[count].toNat 8).take (n - 8 * count)
      = (bits (b.data.take (count + 1))).take n := by
        rw [whole, List.take_append, front,
          List.take_of_length_le below]
    _ = (bits b.data).take n := by
        rw [bits_take, List.take_take, Nat.min_eq_left (by omega)]

def Command.onBits (command : Command) : Action (List Bool) AccessError Unit := fun l =>
  match command with
  | .writeBit bit => ⟨.value (), l ++ [bit], []⟩
  | .writeBits value count =>
    if 64 < count then ⟨.fault (.writeWidth count), l, []⟩
    else ⟨.value (), l ++ field value.toNat count, []⟩
  | .truncate bits =>
    if l.length < bits then
      ⟨.error (.outOfRange 0 bits l.length), l, [.refused (.outOfRange 0 bits l.length)]⟩
    else ⟨.value (), l.take bits, []⟩
  | .reset => ⟨.value (), [], []⟩

theorem writeBits_of_wide {ε : Type} (value : UInt64) {count : Nat} (wide : 64 < count) :
    (writeBits value count : Action BitBuffer ε Unit) b = ⟨.fault (.writeWidth count), b, []⟩ := by
  simp [writeBits, wide]

/-- A write never fails; it appends the field. -/
theorem writeBits_represents (ε : Type) (h : Represents b l) (value : UInt64) {count : Nat}
    (narrow : count ≤ 64) :
    ∃ b', (writeBits value count : Action BitBuffer ε Unit) b = ⟨.value (), b', []⟩ ∧
      Represents b' (l ++ field value.toNat count) := by
  obtain ⟨b', ran, held⟩ := Scatter.run_represents value (s := ⟨b, count⟩) h narrow
  refine ⟨b', ?_, held⟩
  simp [writeBits, Nat.not_lt.mpr narrow, ran]

theorem truncate_apply (h : Represents b l) (n : Nat) :
    truncate n b = if l.length < n then Action.refuse (.outOfRange 0 n l.length) b
      else ⟨.value (), b.keep n, []⟩ := by
  simp only [truncate, Action.get_bind_apply, h.size_eq]
  split <;> rfl

/-- A command answers as it does on the bits and leaves the buffer that holds what they become. -/
theorem Command.run_represents (h : Represents b l) (command : Command) :
    (command.run b).outcome = (command.onBits l).outcome ∧
    (command.run b).events = (command.onBits l).events ∧
    Represents (command.run b).state (command.onBits l).state := by
  cases command with
  | writeBit bit =>
    have narrow : 1 ≤ 64 := by decide
    obtain ⟨b', ran, held⟩ := writeBits_represents AccessError h bit.toUInt64 narrow
    have one : field bit.toUInt64.toNat 1 = [bit] := by cases bit <;> rfl
    simp only [Command.run, BitBuffer.writeBit, ran, Command.onBits, true_and]
    rwa [one] at held
  | writeBits value count =>
    by_cases wide : 64 < count
    · simp only [Command.run, writeBits_of_wide value wide, Command.onBits, if_pos wide, true_and]
      exact h
    · obtain ⟨b', ran, held⟩ := writeBits_represents AccessError h value (Nat.not_lt.mp wide)
      simp only [Command.run, ran, Command.onBits, if_neg wide, true_and]
      exact held
  | truncate n =>
    by_cases past : l.length < n
    · simp only [Command.run, truncate_apply h, if_pos past, Action.refuse_apply, Command.onBits,
        true_and]
      exact h
    · simp only [Command.run, truncate_apply h, if_neg past, Command.onBits, true_and]
      exact keep_represents h (by omega)
  | reset => exact ⟨rfl, rfl, empty_represents⟩

def after (commands : List Command) : BitBuffer := Action.execute Command.run commands empty

def bitsAfter (commands : List Command) : List Bool := Action.execute Command.onBits commands []

theorem after_represents (commands : List Command) :
    Represents (after commands) (bitsAfter commands) :=
  Action.execute_related Represents (fun command _ _ h => (command.run_represents h).2.2) commands
    empty_represents

/-- Bit `i` of a buffer's bytes: as written, and zero up to the end of the last byte. -/
theorem Represents.getElem?_bit (h : Represents b l) (i : Nat) :
    b.data[i / 8]?.map (fun byte => byte.toNat.testBit (7 - i % 8)) =
      if i < l.length then l[i]? else if i < 8 * b.data.length then some false else none := by
  have len := h.length_eq
  rw [← getElem?_bits, h.bits_eq, List.getElem?_append]
  split
  · rfl
  · rw [List.getElem?_replicate]
    congr 1
    simp only [eq_iff_iff]
    omega

/-- After any run the buffer is the bits of the run: its size, its bytes with their padding and its
unset count follow from them, every command answers as it does on them, and a truncation fails
exactly beyond them. Runs that make the same bits make the same buffer. -/
theorem after_refines_bits (commands : List Command) :
    let b := after commands
    let l := bitsAfter commands
    b.size = l.length ∧
    b.data.length = (l.length + 7) / 8 ∧
    (∀ i (inside : i < l.length),
      b.data[i / 8]?.map (fun byte => byte.toNat.testBit (7 - i % 8)) = some l[i]) ∧
    (∀ i, l.length ≤ i → i < 8 * b.data.length →
      b.data[i / 8]?.map (fun byte => byte.toNat.testBit (7 - i % 8)) = some false) ∧
    b.unset = 8 * ((l.length + 7) / 8) - l.length ∧ b.unset < 8 ∧
    (b.unset = 0 ↔ 8 ∣ l.length) ∧
    (∀ command : Command, (command.run b).outcome = (command.onBits l).outcome) ∧
    (∀ n, ((∃ e, (truncate n b).outcome = .error e) ↔ l.length < n)) ∧
    (∀ n, l.length < n → (truncate n b).outcome = .error (.outOfRange 0 n l.length) ∧
      (truncate n b).state = b) ∧
    ∀ others : List Command, b = after others ↔ l = bitsAfter others := by
  intro b l
  have h : Represents b l := after_represents commands
  have len := h.length_eq
  have low := h.unset_lt
  refine ⟨h.size_eq, by omega, ?_, ?_, by omega, low, by omega,
    fun command => (command.run_represents h).1, ?_, ?_, ?_⟩
  · intro i inside
    rw [h.getElem?_bit, if_pos inside, List.getElem?_eq_getElem inside]
  · intro i past inside
    rw [h.getElem?_bit, if_neg (Nat.not_lt.mpr past), if_pos inside]
  · intro n
    rw [truncate_apply h]
    split <;> simp [*]
  · intro n past
    rw [truncate_apply h, if_pos past]
    exact ⟨rfl, rfl⟩
  · intro others
    have h' := after_represents others
    constructor
    · intro same
      exact h.bits_unique (same ▸ h')
    · intro same
      exact h.buffer_unique (same ▸ h')

end BitBuffer

end BinaryStream
