import BinaryStream.Proofs.BitBuffer
import BinaryStream.Proofs.BitCursor.Window

/-!
Fields written one after the other are read back, and bits read in any pieces are written back. A
buffer holds the bits of its fields and a cursor reads numerals of the same bits, so that how a list
of bits was cut never matters.
-/
namespace BinaryStream

open Bytes

/-- The bits of fields, each a value with its width. -/
def fieldBits (fields : List (UInt64 × Nat)) : List Bool :=
  fields.flatMap fun f => field f.1.toNat f.2

/-- The numbers in consecutive pieces of bits. -/
def pieces : List Nat → List Bool → List UInt64
  | [], _ => []
  | width :: widths, bits =>
    UInt64.ofNat (numeral (bits.take width)) :: pieces widths (bits.drop width)

def BitBuffer.writeFields {ε : Type} : List (UInt64 × Nat) → Action BitBuffer ε Unit
  | [] => pure ()
  | (value, width) :: fields => do
    writeBits value width
    writeFields fields

def BitCursor.readFields : List Nat → Action BitCursor AccessError (List UInt64)
  | [] => pure []
  | width :: widths => do
    let value ← read width
    let values ← readFields widths
    pure (value :: values)

theorem fieldBits_cons (value : UInt64) (width : Nat) (fields : List (UInt64 × Nat)) :
    fieldBits ((value, width) :: fields) = field value.toNat width ++ fieldBits fields := rfl

theorem length_fieldBits (fields : List (UInt64 × Nat)) :
    (fieldBits fields).length = (fields.map Prod.snd).sum := by
  induction fields with
  | nil => rfl
  | cons f fields ih =>
    rw [fieldBits_cons, List.length_append, length_field, ih, List.map_cons, List.sum_cons]

theorem length_pieces (widths : List Nat) (bits : List Bool) :
    (pieces widths bits).length = widths.length := by
  induction widths generalizing bits with
  | nil => rfl
  | cons width widths ih => rw [pieces, List.length_cons, ih, List.length_cons]

/-- Fields cut again at their own widths are their values, reduced to the widths. -/
theorem pieces_fieldBits (fields : List (UInt64 × Nat)) :
    pieces (fields.map Prod.snd) (fieldBits fields) =
      fields.map fun f => UInt64.ofNat (f.1.toNat % 2 ^ f.2) := by
  induction fields with
  | nil => rfl
  | cons f fields ih =>
    rw [fieldBits_cons, List.map_cons, pieces, List.take_left' (length_field _ _),
      List.drop_left' (length_field _ _), numeral_field, ih, List.map_cons]

theorem pieces_append {widths : List Nat} {bits : List Bool} (inside : widths.sum ≤ bits.length)
    (rest : List Bool) : pieces widths (bits ++ rest) = pieces widths bits := by
  induction widths generalizing bits with
  | nil => rfl
  | cons width widths ih =>
    rw [List.sum_cons] at inside
    have first : width ≤ bits.length := by omega
    have later : widths.sum ≤ (bits.drop width).length := by
      rw [List.length_drop]
      omega
    rw [pieces, pieces, List.take_append_of_le_length first,
      List.drop_append_of_le_length first, ih later]

/-- Pieces of bits, written at the widths they were cut at, are the bits. -/
theorem fieldBits_pieces {widths : List Nat} (narrow : ∀ width ∈ widths, width ≤ 64)
    {bits : List Bool} (inside : widths.sum ≤ bits.length) :
    fieldBits ((pieces widths bits).zip widths) = bits.take widths.sum := by
  induction widths generalizing bits with
  | nil => rfl
  | cons width widths ih =>
    rw [List.sum_cons] at inside
    have first : (bits.take width).length = width := List.length_take_of_le (by omega)
    have word : (UInt64.ofNat (numeral (bits.take width))).toNat = numeral (bits.take width) :=
      toNat_ofNat_numeral (by rw [first]; exact narrow width (List.mem_cons_self ..))
    have same : field (numeral (bits.take width)) width = bits.take width := by
      have := field_numeral (bits.take width)
      rwa [first] at this
    have rest : widths.sum ≤ (bits.drop width).length := by
      rw [List.length_drop]
      omega
    rw [pieces, List.zip_cons_cons, fieldBits_cons, word, same,
      ih (fun w member => narrow w (List.mem_cons_of_mem _ member)) rest, List.sum_cons,
      List.take_add]

theorem BitBuffer.writeFields_represents (ε : Type) {fields : List (UInt64 × Nat)}
    (narrow : ∀ f ∈ fields, f.2 ≤ 64) {b : BitBuffer} {l : List Bool} (h : Represents b l) :
    ∃ b', (writeFields fields : Action BitBuffer ε Unit) b = ⟨.value (), b', []⟩ ∧
      Represents b' (l ++ fieldBits fields) := by
  induction fields generalizing b l with
  | nil =>
    refine ⟨b, rfl, ?_⟩
    simpa [fieldBits] using h
  | cons f fields ih =>
    obtain ⟨value, width⟩ := f
    obtain ⟨b₁, wrote, held⟩ :=
      writeBits_represents ε h value (narrow (value, width) (List.mem_cons_self ..))
    obtain ⟨b₂, ran, result⟩ := ih (fun f member => narrow f (List.mem_cons_of_mem _ member)) held
    refine ⟨b₂, ?_, ?_⟩
    · rw [writeFields, Action.bind_of_value wrote, ran]
      rfl
    · rwa [fieldBits_cons, ← List.append_assoc]

theorem BitCursor.readFields_apply {widths : List Nat} (narrow : ∀ width ∈ widths, width ≤ 64)
    {c : BitCursor} (h : Framed c) (inside : c.position + widths.sum ≤ c.length) :
    readFields widths c = ⟨.value (pieces widths (c.visible.drop c.position)),
      { c with position := c.position + widths.sum }, []⟩ := by
  induction widths generalizing c with
  | nil => rfl
  | cons width widths ih =>
    rw [List.sum_cons] at inside
    have first : c.position + width ≤ c.length := by omega
    have slim : ¬ 64 < width := Nat.not_lt.mpr (narrow width (List.mem_cons_self ..))
    have taken := h.read_apply width
    rw [if_neg slim, if_pos first] at taken
    have ran := ih (fun w member => narrow w (List.mem_cons_of_mem _ member)) (h.moved first)
      (by rw [Nat.add_assoc]; exact inside)
    rw [readFields, Action.bind_of_value taken, Action.bind_of_value ran, pieces, List.sum_cons,
      ← Nat.add_assoc, List.drop_drop]
    rfl

def BitBuffer.whole (b : BitBuffer) : BitCursor := ⟨b.data, 0, b.data.length * 8, 0⟩

@[simp] theorem BitBuffer.whole_length (b : BitBuffer) : b.whole.length = b.data.length * 8 := rfl

@[simp] theorem BitBuffer.whole_position (b : BitBuffer) : b.whole.position = 0 := rfl

namespace BitBuffer.Represents

open BitCursor (readFields)

variable {b : BitBuffer} {l : List Bool}

theorem whole_valid (small : 8 * b.data.length < Size.limit) :
    BitCursor.ofBytes b.data = .ok b.whole ∧ BitCursor.Valid b.whole := by
  have short : b.data.length < 2 ^ 61 := by
    simp only [Size.limit] at small
    omega
  exact ⟨BitCursor.ofBytes_of_lt short, .whole short⟩

theorem visible_whole (h : Represents b l) (position : Nat) :
    BitCursor.visible { b.whole with position } = l ++ List.replicate b.unset false := by
  have length : (bits b.data).length ≤ b.data.length * 8 := by
    rw [length_bits]
    omega
  change ((bits b.data).drop (8 * 0)).take (b.data.length * 8) = _
  rw [Nat.mul_zero, List.drop_zero, List.take_of_length_le length, h.bits_eq]

/-- However the bits of a buffer are cut, the pieces make the buffer again. -/
theorem recut (h : Represents b l) (small : 8 * b.data.length < Size.limit) {widths : List Nat}
    (narrow : ∀ width ∈ widths, width ≤ 64) (total : widths.sum = l.length) :
    readFields widths b.whole =
        ⟨.value (pieces widths l), { b.whole with position := l.length }, []⟩ ∧
      ∀ ε : Type, (writeFields ((pieces widths l).zip widths) : Action BitBuffer ε Unit) empty =
        ⟨.value (), b, []⟩ := by
  have len := h.length_eq
  have inside : b.whole.position + widths.sum ≤ b.whole.length := by
    rw [whole_position, whole_length]
    omega
  constructor
  · have seen : b.whole.visible = l ++ List.replicate b.unset false := h.visible_whole 0
    rw [BitCursor.readFields_apply narrow (whole_valid small).2.framed inside, seen, whole_position,
      List.drop_zero, pieces_append (Nat.le_of_eq total), Nat.zero_add, total]
  · intro ε
    have slim : ∀ f ∈ (pieces widths l).zip widths, f.2 ≤ 64 := by
      intro f member
      exact narrow f.2 (List.of_mem_zip member).2
    obtain ⟨b', wrote, held⟩ := writeFields_represents ε slim empty_represents
    rw [List.nil_append, fieldBits_pieces narrow (Nat.le_of_eq total), total,
      List.take_length] at held
    -- What was written holds the bits of `b`, and no other buffer does.
    rw [wrote, h.buffer_unique held]

/-- A field is found where the fields before it end. -/
theorem readAt_field {before after : List (UInt64 × Nat)} {value : UInt64} {width : Nat}
    (h : Represents b (fieldBits (before ++ (value, width) :: after)))
    (small : 8 * b.data.length < Size.limit) (narrow : width ≤ 64) {position : Nat}
    (inside : position ≤ b.whole.length) :
    BitCursor.readAt (before.map Prod.snd).sum width { b.whole with position } =
      ⟨.value (UInt64.ofNat (value.toNat % 2 ^ width)), { b.whole with position }, []⟩ := by
  have valid := (whole_valid small).2.moved inside
  have len := h.length_eq
  rw [length_fieldBits, List.map_append, List.sum_append, List.map_cons, List.sum_cons] at len
  have fits : (before.map Prod.snd).sum + width ≤ b.whole.length := by
    rw [whole_length]
    omega
  have start : fieldBits (before ++ (value, width) :: after) =
      fieldBits before ++ (field value.toNat width ++ fieldBits after) := by
    rw [← fieldBits_cons, fieldBits, List.flatMap_append]
    rfl
  rw [valid.framed.readAt_apply, if_neg (Nat.not_lt.mpr narrow), if_pos fits, h.visible_whole,
    start, List.append_assoc, List.append_assoc, List.drop_left' (length_fieldBits before),
    List.take_left' (length_field _ _), numeral_field]

end BitBuffer.Represents

/-- Fields that are written are read back, reduced to their widths, and found at their places; read
in any other pieces, the same bits make the same buffer; and any block, read in any pieces that use
it up, is written back. Bit counts are words. -/
theorem fields_round_trip (ε : Type) :
    (∀ fields : List (UInt64 × Nat), (∀ f ∈ fields, f.2 ≤ 64) →
      let widths := fields.map Prod.snd
      let total := widths.sum
      8 * ((total + 7) / 8) < Size.limit →
      ∃ b c, (BitBuffer.writeFields fields : Action BitBuffer ε Unit) .empty =
          ⟨.value (), b, []⟩ ∧
        BitCursor.ofBytes b.data = .ok c ∧
        BitCursor.readFields widths c =
          ⟨.value (fields.map fun f => UInt64.ofNat (f.1.toNat % 2 ^ f.2)),
            { c with position := total }, []⟩ ∧
        BitCursor.remaining { c with position := total } = 8 * ((total + 7) / 8) - total ∧
        (∀ before value width after, fields = before ++ (value, width) :: after →
          ∀ position, position ≤ c.length →
            BitCursor.readAt (before.map Prod.snd).sum width { c with position } =
              ⟨.value (UInt64.ofNat (value.toNat % 2 ^ width)), { c with position }, []⟩) ∧
        ∀ others : List Nat, (∀ width ∈ others, width ≤ 64) → others.sum = total →
          ∃ values, BitCursor.readFields others c =
              ⟨.value values, { c with position := total }, []⟩ ∧
            values.length = others.length ∧
            (BitBuffer.writeFields (values.zip others) : Action BitBuffer ε Unit) .empty =
              ⟨.value (), b, []⟩) ∧
    ∀ data : List UInt8, 8 * data.length < Size.limit →
      ∀ widths : List Nat, (∀ width ∈ widths, width ≤ 64) → widths.sum = 8 * data.length →
        ∃ c values b, BitCursor.ofBytes data = .ok c ∧
          BitCursor.readFields widths c =
            ⟨.value values, { c with position := 8 * data.length }, []⟩ ∧
          values.length = widths.length ∧
          (BitBuffer.writeFields (values.zip widths) : Action BitBuffer ε Unit) .empty =
            ⟨.value (), b, []⟩ ∧
          b.data = data := by
  constructor
  · intro fields narrow widths total words
    obtain ⟨b, wrote, held⟩ :=
      BitBuffer.writeFields_represents ε narrow BitBuffer.empty_represents
    rw [List.nil_append] at held
    have sum : (fieldBits fields).length = total := length_fieldBits fields
    have len := held.length_eq
    have low := held.unset_lt
    have bytes : b.data.length = (total + 7) / 8 := by omega
    have small : 8 * b.data.length < Size.limit := by rwa [bytes]
    have slim : ∀ width ∈ widths, width ≤ 64 := by
      intro width member
      obtain ⟨f, found, rfl⟩ := List.mem_map.mp member
      exact narrow f found
    refine ⟨b, b.whole, wrote, (BitBuffer.Represents.whole_valid small).1, ?_, ?_, ?_, ?_⟩
    · rw [(held.recut small slim sum.symm).1, pieces_fieldBits, sum]
    · change b.data.length * 8 - total = _
      omega
    · rintro before value width after rfl position inside
      exact held.readAt_field small (narrow (value, width) (by simp)) inside
    · intro others thin same
      obtain ⟨read, written⟩ := held.recut small thin (same.trans sum.symm)
      rw [sum] at read
      exact ⟨_, read, length_pieces _ _, written ε⟩
  · intro data small widths narrow total
    have held : BitBuffer.Represents ⟨data, 0⟩ (bits data) :=
      ⟨Nat.zero_lt_succ 7, by simp⟩
    obtain ⟨read, written⟩ :=
      held.recut small narrow (total.trans (length_bits data).symm)
    rw [length_bits] at read
    exact ⟨_, _, _, (BitBuffer.Represents.whole_valid (b := ⟨data, 0⟩) small).1, read,
      length_pieces _ _, written ε, rfl⟩

/-- Three fields, the first with bits above its width, and the same ten bits in two other pieces. -/
theorem fields_round_trip_recut :
    let fields : List (UInt64 × Nat) := [(0xFF05, 3), (0, 0), (0x1A, 7)]
    ∃ b c, (BitBuffer.writeFields fields : Action BitBuffer Empty Unit) .empty =
        ⟨.value (), b, []⟩ ∧
      BitCursor.ofBytes b.data = .ok c ∧
      BitCursor.readFields [3, 0, 7] c = ⟨.value [5, 0, 0x1A], { c with position := 10 }, []⟩ ∧
      ∃ values, BitCursor.readFields [9, 1] c = ⟨.value values, { c with position := 10 }, []⟩ ∧
        (BitBuffer.writeFields (values.zip [9, 1]) : Action BitBuffer Empty Unit) .empty =
          ⟨.value (), b, []⟩ := by
  obtain ⟨b, c, wrote, made, read, -, -, others⟩ := (fields_round_trip Empty).1
    [(0xFF05, 3), (0, 0), (0x1A, 7)] (by decide) (by decide)
  obtain ⟨values, again, -, written⟩ := others [9, 1] (by decide) (by decide)
  exact ⟨b, c, wrote, made, read, values, again, written⟩

end BinaryStream
