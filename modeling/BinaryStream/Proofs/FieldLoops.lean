import BinaryStream.Proofs.BitBuffer
import BinaryStream.Proofs.BitCursor.Window

/-!
The loops that cut a field at the ends of bytes, round by round and operation by operation. A round
is written out a second time with every difference, sum, shift and index checked, so that one a
machine could not carry out is a fault; in every round of every field both say the same. What a loop
keeps is one invariant for each, and the number of its rounds follows from one measure.
-/
namespace BinaryStream

/-- A shift amount, in a place that expects it to be less than the width of the word. -/
def Size.shift (width amount : Nat) : Except Fault Nat :=
  if amount < width then .ok amount else .error .overflow

theorem Size.shift_of_lt {width amount : Nat} (less : amount < width) :
    shift width amount = .ok amount := if_pos less

/-! Loops. -/

section Loops

variable {σ : Type}

/-- The states that a loop starts a round in, and the state that it ends in: the first in which it
does not go on. -/
inductive Iterates (step : σ → Except Fault σ) (goesOn : σ → Prop) : σ → List σ → σ → Prop where
  | ended {s : σ} (stop : ¬ goesOn s) : Iterates step goesOn s [] s
  | again {s next : σ} {rounds : List σ} {last : σ} (on : goesOn s) (stepped : step s = .ok next)
      (rest : Iterates step goesOn next rounds last) :
      Iterates step goesOn s (s :: rounds) last

/-- A loop whose every round keeps an invariant and lowers a measure comes to its end in no more
rounds than the measure says. -/
theorem exists_iterates {step : σ → Except Fault σ} {goesOn holds : σ → Prop}
    {safe : σ → σ → Prop} {measure : σ → Nat}
    (round : ∀ s, holds s → goesOn s →
      ∃ next, step s = .ok next ∧ holds next ∧ measure next < measure s ∧ safe s next)
    {s : σ} (initial : holds s) :
    ∃ rounds last, Iterates step goesOn s rounds last ∧ holds last ∧
      rounds.length ≤ measure s ∧ ∀ t ∈ rounds, ∃ next, step t = .ok next ∧ safe t next := by
  induction size : measure s using Nat.strongRecOn generalizing s with
  | _ n ih =>
    by_cases on : goesOn s
    · obtain ⟨next, stepped, kept, less, safely⟩ := round s initial on
      obtain ⟨rounds, last, rest, held, few, others⟩ := ih _ (size ▸ less) kept rfl
      refine ⟨s :: rounds, last, .again on stepped rest, held, ?_, ?_⟩
      · rw [List.length_cons]
        omega
      · rintro t (_ | ⟨_, member⟩)
        · exact ⟨next, stepped, safely⟩
        · exact others t member
    · exact ⟨[], s, .ended on, initial, Nat.zero_le _, nofun⟩

end Loops

/-! Reading. -/

namespace Gather

/-- A round of checked arithmetic: the piece is shifted up and down in its byte and put below the
number read so far. -/
def checkedStep (bytes : List UInt8) (g : Gather) : Except Fault Gather := do
  let skipped := g.position % 8
  let share := min (← Size.difference 8 skipped) g.left
  let up ← Size.shift 8 skipped
  let down ← Size.shift 8 (← Size.difference 8 share)
  let place ← Size.shift 64 share
  let position ← Size.sum g.position share
  let left ← Size.difference g.left share
  match bytes[g.position / 8]? with
  | none => .error .bounds
  | some b =>
    .ok ⟨position, left,
      g.value <<< UInt64.ofNat place ||| (b <<< UInt8.ofNat up >>> UInt8.ofNat down).toUInt64⟩

/-- A field that lies in the block, of which no more has been read than leaves room in a word for
the rest; it ends at `stop`. -/
structure Inside (bytes : List UInt8) (stop : Nat) (g : Gather) : Prop where
  stop_eq : g.position + g.left = stop
  stop_le : stop ≤ 8 * bytes.length
  fits : (g.value.toNat + 1) * 2 ^ g.left ≤ 2 ^ 64

/-- What a round does that leads from `g` to `next`, in a field that ends at `stop`. -/
structure Safe (bytes : List UInt8) (stop : Nat) (g next : Gather) : Prop where
  share_pos : 1 ≤ g.share
  share_le : g.share ≤ 8
  left_lt : next.left < g.left
  up_le : g.position % 8 ≤ 7
  down_le : 8 - g.share ≤ 7
  indexed : g.position / 8 < bytes.length
  /-- The number read so far loses none of its bits when it makes room for the piece. -/
  kept : (g.value <<< UInt64.ofNat g.share).toNat = g.value.toNat * 2 ^ g.share
  position_le : next.position ≤ stop
  /-- A field that ends at a position which a machine can count to is read without a fault. -/
  checked : stop < Size.limit → g.checkedStep bytes = .ok next

/-- The bytes that the rest of the field touches. -/
def rounds (g : Gather) : Nat := if g.left = 0 then 0 else (g.position % 8 + g.left + 7) / 8

variable {bytes : List UInt8} {stop : Nat} {g next : Gather}

theorem Inside.checkedStep_eq (inside : Inside bytes stop g) (more : g.left ≠ 0)
    (word : stop < Size.limit) : g.checkedStep bytes = g.step bytes := by
  have some := share_pos more
  have part : g.share ≤ g.left := Nat.min_le_right _ _
  have room : g.share ≤ 8 - g.position % 8 := Nat.min_le_left _ _
  have ends := inside.stop_eq
  have within := inside.stop_le
  have skipped : g.position % 8 < 8 := Nat.mod_lt _ (by decide)
  have free := Size.difference_of_le (Nat.le_of_lt skipped)
  have down := Size.difference_of_le (show g.share ≤ 8 by omega)
  have left := Size.difference_of_le part
  have position := Size.sum_of_lt (show g.position + g.share < Size.limit by omega)
  have shifts := Size.shift_of_lt (show 8 - g.share < 8 by omega)
  have place := Size.shift_of_lt (show g.share < 64 by omega)
  simp only [share] at down left position shifts place
  have indexed := List.getElem?_eq_getElem (show g.position / 8 < bytes.length by omega)
  simp only [checkedStep, step, share, bind, Except.bind, free, down, left, position,
    Size.shift_of_lt skipped, shifts, place, indexed]

theorem Inside.round (inside : Inside bytes stop g) (more : g.left ≠ 0) :
    ∃ next, g.step bytes = .ok next ∧ Inside bytes stop next ∧ next.rounds < g.rounds ∧
      Safe bytes stop g next := by
  have some := share_pos more
  have part : g.share ≤ g.left := Nat.min_le_right _ _
  have room : g.share ≤ 8 - g.position % 8 := Nat.min_le_left _ _
  have ends := inside.stop_eq
  have within := inside.stop_le
  obtain ⟨next, stepped, position, left, value⟩ :=
    step_eq more (ends.trans_le within) inside.fits
  have width : (((Bytes.bits bytes).drop g.position).take g.share).length = g.share := by
    rw [List.length_take, List.length_drop, Bytes.length_bits]
    omega
  refine ⟨next, stepped, ⟨by omega, within, fits_next inside.fits width left value⟩, ?_, ?_⟩
  · -- Unless the field ends in this byte, its next piece starts with the byte behind it.
    rw [rounds, rounds, if_neg more]
    split
    · omega
    · have whole : g.share = 8 - g.position % 8 := by
        rw [share] at left ⊢
        omega
      omega
  · exact {
      share_pos := some
      share_le := by omega
      left_lt := by omega
      up_le := by omega
      down_le := by omega
      indexed := by omega
      kept := toNat_shifted inside.fits
      position_le := by omega
      checked := fun word => (inside.checkedStep_eq more word).trans stepped }

theorem run_of_iterates {rounds : List Gather} {last : Gather}
    (loop : Iterates (step bytes) (·.left ≠ 0) g rounds last) : g.run bytes = .ok last.value := by
  induction loop with
  | ended stop => rw [run, dif_pos (Decidable.not_not.mp stop)]
  | again on stepped _ ih => exact (run_of_step on stepped).trans ih

end Gather

/-! Writing. -/

namespace BitBuffer

/-- The free bits are the low ones of the last byte, fewer than eight and none where there is no
byte, and they are zero. -/
structure Sound (b : BitBuffer) : Prop where
  unset_lt : b.unset < 8
  unset_of_empty : b.data = [] → b.unset = 0
  zeros : ∀ last, b.data.getLast? = some last → ∀ i < b.unset, last.toNat.testBit i = false

variable {b : BitBuffer}

/-- Such buffers are those that hold some bits. -/
theorem sound_iff_represents : b.Sound ↔ ∃ l, b.Represents l := by
  constructor
  · intro sound
    have few := sound.unset_lt
    by_cases none : b.data = []
    · have unset := sound.unset_of_empty none
      exact ⟨[], few, by rw [none, unset]; rfl⟩
    · obtain ⟨front, last, parts⟩ : ∃ front last, b.data = front ++ [last] :=
        ⟨_, _, (List.dropLast_concat_getLast none).symm⟩
      have zeros : field last.toNat b.unset = List.replicate b.unset false := by
        rw [← field_zero_eq_replicate]
        apply field_congr
        intro i inside
        rw [Nat.zero_testBit]
        exact sound.zeros last (by rw [parts, List.getLast?_concat]) i inside
      have whole : 8 = (8 - b.unset) + b.unset := by omega
      refine ⟨Bytes.bits front ++ field (last.toNat >>> b.unset) (8 - b.unset), few, ?_⟩
      rw [parts, Bytes.bits_append, Bytes.bits_cons, Bytes.bits_nil, List.append_nil,
        List.append_assoc, ← zeros, ← field_add, ← whole]
  · rintro ⟨l, represents⟩
    refine ⟨represents.unset_lt, ?_, ?_⟩
    · intro none
      have length := represents.length_eq
      rw [none, List.length_nil] at length
      omega
    · intro last found i inside
      obtain ⟨front, last', opened⟩ := represents.opened
      have same : b.opened = b := if_neg (by omega)
      rw [same] at opened
      have here : b.data.getLast? = some last' := by rw [opened.data_eq, List.getLast?_concat]
      obtain rfl : last' = last := Option.some.inj (here.symm.trans found)
      exact testBit_of_field_eq_zeros opened.zeros inside

end BitBuffer

namespace Scatter

/-- The current byte's piece of `value`, where it goes in the byte. -/
def placed (value : UInt64) (s : Scatter) : UInt8 :=
  (value >>> UInt64.ofNat (s.left - s.share) &&&
    ((1 : UInt64) <<< UInt64.ofNat s.share - 1)).toUInt8 <<<
      UInt8.ofNat (s.buffer.opened.unset - s.share)

/-- A round of checked arithmetic: the piece is cut out of `value` and put into the last byte, which
is found by its index. -/
def checkedStep (value : UInt64) (s : Scatter) : Except Fault Scatter := do
  let b := s.buffer.opened
  let share := min b.unset s.left
  let left ← Size.difference s.left share
  let down ← Size.shift 64 left
  let width ← Size.shift 64 share
  let power := (1 : UInt64) <<< UInt64.ofNat width
  let mask ← Size.difference power.toNat 1
  let unset ← Size.difference b.unset share
  let up ← Size.shift 8 unset
  let last ← Size.difference b.data.length 1
  match b.data[last]? with
  | none => .error .bounds
  | some byte =>
    let piece := (value >>> UInt64.ofNat down &&& UInt64.ofNat mask).toUInt8
    .ok ⟨⟨b.data.set last (byte ||| piece <<< UInt8.ofNat up), unset⟩, left⟩

/-- What a round does that leads from `s` to `next`. -/
structure Safe (value : UInt64) (s next : Scatter) : Prop where
  share_pos : 1 ≤ s.share
  share_le : s.share ≤ 8
  left_lt : next.left < s.left
  down_lt : next.left < 64
  up_le : s.buffer.opened.unset - s.share ≤ 7
  /-- There is a last byte, and only bits of it change that are free and zero. -/
  put : ∃ front last, s.buffer.opened.data = front ++ [last] ∧
    next.buffer.data = front ++ [last ||| s.placed value] ∧
    ∀ i, (s.placed value).toNat.testBit i = true →
      next.buffer.unset ≤ i ∧ i < s.buffer.opened.unset ∧ last.toNat.testBit i = false
  checked : s.checkedStep value = .ok next

/-- The bytes that the rest of the field goes to. -/
def rounds (s : Scatter) : Nat :=
  if s.left = 0 then 0 else (8 - s.buffer.opened.unset + s.left + 7) / 8

variable {s : Scatter} {value : UInt64} {front : List UInt8} {last : UInt8}

theorem step_of_concat (data_eq : s.buffer.opened.data = front ++ [last]) (value : UInt64) :
    s.step value = .ok ⟨⟨front ++ [last ||| s.placed value], s.buffer.opened.unset - s.share⟩,
      s.left - s.share⟩ := by
  have some : (front ++ [last]).isEmpty = false := by simp
  simp only [step, some, Bool.false_eq_true, if_false, data_eq, mapLast_concat, placed]

theorem checkedStep_of_concat (data_eq : s.buffer.opened.data = front ++ [last])
    (some : 0 < s.share) (unset_le : s.buffer.opened.unset ≤ 8) (narrow : s.left ≤ 64) :
    s.checkedStep value = s.step value := by
  have part : s.share ≤ s.left := Nat.min_le_right _ _
  have room : s.share ≤ s.buffer.opened.unset := Nat.min_le_left _ _
  have power := toNat_power (show s.share < 64 by omega)
  have one_le : 1 ≤ ((1 : UInt64) <<< UInt64.ofNat s.share).toNat := by
    rw [power]
    exact Nat.two_pow_pos _
  have mask : UInt64.ofNat (((1 : UInt64) <<< UInt64.ofNat s.share).toNat - 1) =
      (1 : UInt64) <<< UInt64.ofNat s.share - 1 := by
    have le : 1 ≤ (1 : UInt64) <<< UInt64.ofNat s.share := UInt64.le_iff_toNat_le.mpr one_le
    rw [← UInt64.toNat_one, ← UInt64.toNat_sub_of_le _ _ le, UInt64.ofNat_toNat]
  have length : s.buffer.opened.data.length = front.length + 1 := by rw [data_eq]; simp
  have left := Size.difference_of_le part
  have down := Size.shift_of_lt (show s.left - s.share < 64 by omega)
  have width := Size.shift_of_lt (show s.share < 64 by omega)
  have ones := Size.difference_of_le one_le
  have unset := Size.difference_of_le room
  have up := Size.shift_of_lt (show s.buffer.opened.unset - s.share < 8 by omega)
  have index := Size.difference_of_le (show 1 ≤ s.buffer.opened.data.length by omega)
  rw [step_of_concat data_eq]
  simp only [share] at left down width ones unset up mask
  simp only [checkedStep, bind, Except.bind, left, down, width, ones, unset, up, index, mask, share,
    placed]
  rw [length, Nat.add_sub_cancel, data_eq]
  simp

/-- A piece covers the bits that it was made for and no others. -/
theorem testBit_placed (some : 0 < s.share) (unset_le : s.buffer.opened.unset ≤ 8)
    (narrow : s.left ≤ 64) {i : Nat} (one : (s.placed value).toNat.testBit i = true) :
    s.buffer.opened.unset - s.share ≤ i ∧ i < s.buffer.opened.unset := by
  have part : s.share ≤ s.left := Nat.min_le_right _ _
  have room : s.share ≤ s.buffer.opened.unset := Nat.min_le_left _ _
  have amount : (UInt8.ofNat (s.buffer.opened.unset - s.share)).toNat % 8 =
      s.buffer.opened.unset - s.share := by
    rw [UInt8.toNat_ofNat']
    omega
  rw [placed, UInt8.toNat_shiftLeft, amount, toNat_piece value (by omega) (by omega),
    Nat.testBit_mod_two_pow, Nat.testBit_shiftLeft, Nat.testBit_mod_two_pow] at one
  simp only [Bool.and_eq_true, decide_eq_true_eq] at one
  omega

/-- Unless the field ends in this byte, the byte is full and the next piece opens another. -/
theorem rounds_lt {s next : Scatter} (more : s.left ≠ 0) (unset_le : s.buffer.opened.unset ≤ 8)
    (left : next.left = s.left - s.share)
    (unset : next.buffer.unset = s.buffer.opened.unset - s.share) : next.rounds < s.rounds := by
  have some := share_pos more
  have share_eq : s.share = min s.buffer.opened.unset s.left := rfl
  rw [rounds, rounds, if_neg more]
  split
  · omega
  · have full : next.buffer.unset = 0 := by omega
    have opened : next.buffer.opened.unset = 8 := by rw [BitBuffer.opened, if_pos full]
    omega

/-- A buffer that holds some bits, and no more of the field left than a word has. -/
structure Ready (s : Scatter) : Prop where
  represents : ∃ l, s.buffer.Represents l
  narrow : s.left ≤ 64

theorem Ready.round (ready : Ready s) (value : UInt64) (more : s.left ≠ 0) :
    ∃ next, s.step value = .ok next ∧ Ready next ∧ next.rounds < s.rounds ∧
      Safe value s next := by
  have narrow := ready.narrow
  obtain ⟨l, represents⟩ := ready.represents
  obtain ⟨front, last, opened⟩ := represents.opened
  obtain ⟨_, stepped, -, held⟩ := step_represents value represents more narrow
  have some := share_pos more
  have part : s.share ≤ s.left := Nat.min_le_right _ _
  have room : s.share ≤ s.buffer.opened.unset := Nat.min_le_left _ _
  have unset_le := opened.unset_le
  have next_eq := step_of_concat opened.data_eq value
  obtain rfl := Except.ok.inj (stepped.symm.trans next_eq)
  refine ⟨_, next_eq, ⟨⟨_, held⟩, Nat.le_trans (Nat.sub_le _ _) narrow⟩,
    rounds_lt more unset_le rfl rfl, ?_⟩
  · exact {
      share_pos := some
      share_le := by omega
      left_lt := Nat.sub_lt (Nat.pos_of_ne_zero more) some
      down_lt := show s.left - s.share < 64 by omega
      up_le := by omega
      put := by
        refine ⟨front, last, opened.data_eq, rfl, fun i one => ?_⟩
        obtain ⟨above, below⟩ := testBit_placed some unset_le narrow one
        exact ⟨above, below, testBit_of_field_eq_zeros opened.zeros below⟩
      checked := (checkedStep_of_concat opened.data_eq some unset_le narrow).trans next_eq }

theorem run_of_iterates {rounds : List Scatter} {last : Scatter}
    (loop : Iterates (step value) (·.left ≠ 0) s rounds last) :
    s.run value = .ok last.buffer := by
  induction loop with
  | ended stop => exact run_of_left_eq_zero value (Decidable.not_not.mp stop)
  | again on stepped _ ih => exact (run_of_step on stepped).trans ih

end Scatter

/-! Both. -/

/-- Reading a field that lies in the block and writing one to a sound buffer are loops that come to
their end in at most nine rounds. In each of them a piece of one to eight bits is taken and less of
the field is left; bytes are shifted by at most seven and words by less than their width, the number
read so far by at most eight and without losing a bit; the byte that is read is there, and so is the
last byte, of which only bits that are free and zero are written. No difference, sum, shift or index
of a round is one that a machine could not carry out, and what is written leaves a sound buffer. -/
theorem field_loops_safe :
    (∀ (c : BitCursor) (position width : Nat), c.start ≤ c.data.length → width ≤ 64 →
      position + width ≤ 8 * (c.data.length - c.start) →
      let bytes := c.data.drop c.start
      ∃ rounds last,
        Iterates (Gather.step bytes) (·.left ≠ 0) ⟨position, width, 0⟩ rounds last ∧
        c.extract position width = .ok last.value ∧ rounds.length ≤ 9 ∧
        ∀ g ∈ rounds, ∃ next, g.step bytes = .ok next ∧
          Gather.Safe bytes (position + width) g next) ∧
    ∀ (b : BitBuffer) (value : UInt64) (n : Nat), b.Sound → n ≤ 64 →
      ∃ rounds last,
        Iterates (Scatter.step value) (·.left ≠ 0) ⟨b, n⟩ rounds last ∧
        (BitBuffer.writeBits value n : Action BitBuffer Empty Unit) b =
          ⟨.value (), last.buffer, []⟩ ∧
        last.buffer.Sound ∧ rounds.length ≤ 9 ∧
        ∀ s ∈ rounds, ∃ next, s.step value = .ok next ∧ Scatter.Safe value s next := by
  refine ⟨?_, ?_⟩
  · intro c position width start narrow inside bytes
    have field : Gather.Inside bytes (position + width) ⟨position, width, 0⟩ := by
      refine ⟨rfl, ?_, ?_⟩
      · rwa [List.length_drop]
      · simpa using Nat.pow_le_pow_right (by decide : 0 < 2) narrow
    obtain ⟨rounds, last, loop, -, few, safe⟩ :=
      exists_iterates (fun _ inside => Gather.Inside.round inside) field
    refine ⟨rounds, last, loop, ?_, Nat.le_trans few ?_, safe⟩
    · rw [BitCursor.extract, Bytes.tail, if_pos start]
      exact Gather.run_of_iterates loop
    · simp only [Gather.rounds]
      split <;> omega
  · intro b value n sound narrow
    have ready : Scatter.Ready ⟨b, n⟩ := ⟨BitBuffer.sound_iff_represents.mp sound, narrow⟩
    obtain ⟨rounds, last, loop, done, few, safe⟩ :=
      exists_iterates (fun _ ready => Scatter.Ready.round ready value) ready
    refine ⟨rounds, last, loop, ?_, BitBuffer.sound_iff_represents.mpr done.represents,
      Nat.le_trans few ?_, safe⟩
    · have ran := Scatter.run_of_iterates loop
      simp [BitBuffer.writeBits, Nat.not_lt.mpr narrow, ran]
    · simp only [Scatter.rounds]
      split <;> omega

theorem field_loops_safe_unaligned :
    (∃ rounds last,
      Iterates (Gather.step (List.replicate 9 0xA5)) (·.left ≠ 0) ⟨7, 64, 0⟩ rounds last ∧
      BitCursor.extract ⟨List.replicate 9 0xA5, 0, 72, 0⟩ 7 64 = .ok last.value ∧
      rounds.length ≤ 9 ∧
      ∀ g ∈ rounds, ∃ next, g.step (List.replicate 9 0xA5) = .ok next ∧
        Gather.Safe (List.replicate 9 0xA5) 71 g next) ∧
    ∃ rounds last,
      Iterates (Scatter.step 0x0123456789ABCDEF) (·.left ≠ 0) ⟨⟨[0xFE], 1⟩, 64⟩ rounds last ∧
      (BitBuffer.writeBits 0x0123456789ABCDEF 64 : Action BitBuffer Empty Unit) ⟨[0xFE], 1⟩ =
        ⟨.value (), last.buffer, []⟩ ∧
      last.buffer.Sound ∧ rounds.length ≤ 9 ∧
      ∀ s ∈ rounds, ∃ next, s.step 0x0123456789ABCDEF = .ok next ∧
        Scatter.Safe 0x0123456789ABCDEF s next := by
  refine ⟨field_loops_safe.1 ⟨List.replicate 9 0xA5, 0, 72, 0⟩ 7 64 (by decide) (by decide)
      (by decide),
    field_loops_safe.2 ⟨[0xFE], 1⟩ 0x0123456789ABCDEF 64 ⟨by decide, by decide, ?_⟩ (by decide)⟩
  rintro last ⟨⟩
  decide

end BinaryStream
