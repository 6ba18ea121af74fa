import BinaryStream.Cell
import BinaryStream.Proofs.Positional
import BinaryStream.Proofs.ScalarRoundTrip

/-!
Cells as values. However a cell was made and changed, it holds the stored form of one value: of the
last one put into it, or of the one that its first bytes are read as. So cells are equal just when
they are read alike, and of values that is congruence modulo the stored width. At the front of a
block that is long enough a cell, a value or room for a value is found; what is behind the front
neither matters nor changes.
-/
namespace BinaryStream

open Bytes

theorem Scalar.encode_eq_encode_iff (t : Scalar) (order : ByteOrder) (a b : t.Value) :
    t.encode order a = t.encode order b ↔
      t.toInt a % 2 ^ (8 * t.size) = t.toInt b % 2 ^ (8 * t.size) := by
  have numbers : t.toInt a % 2 ^ (8 * t.size) = t.toInt b % 2 ^ (8 * t.size) ↔
      a.toNat % 2 ^ (8 * t.size) = b.toNat % 2 ^ (8 * t.size) := by
    rw [t.toInt_emod, t.toInt_emod]
    norm_cast
  rw [numbers, t.encode_eq, t.encode_eq]
  constructor
  · intro same
    have low := congrArg (fun bytes => number (order.arrange bytes)) same
    simpa only [ByteOrder.arrange_arrange, number_digits] using low
  · intro same
    rw [← digits_mod, same, digits_mod]

namespace Cell

variable {l : Layout}

theorem bytes_inj {a b : Cell l} : a.bytes = b.bytes ↔ a = b := by
  obtain ⟨bytes, exact⟩ := a
  obtain ⟨bytes', exact'⟩ := b
  rw [Cell.mk.injEq]

theorem encode_get (cell : Cell l) : l.encode cell.get = cell.bytes :=
  l.scalar.encode_decode l.order cell.length_bytes

theorem set_get (cell : Cell l) : cell.set cell.get = cell :=
  bytes_inj.mp cell.encode_get

theorem get_inj {a b : Cell l} : a.get = b.get ↔ a = b := by
  constructor
  · intro same
    rw [← bytes_inj, ← a.encode_get, ← b.encode_get, same]
  · exact congrArg get

theorem ofBytes?_eq_some_iff {bytes : List UInt8} {cell : Cell l} :
    ofBytes? l bytes = some cell ↔ cell.bytes = bytes := by
  rw [ofBytes?]
  split
  · rw [Option.some.injEq, ← bytes_inj, eq_comm]
  · rename_i other
    simp only [reduceCtorEq, false_iff]
    rintro rfl
    exact other cell.length_bytes

/-! How cells come to be. -/

inductive Origin (l : Layout) where
  | ofValue (value : l.Value)
  | zero
  | ofBytes (bytes : List UInt8)
  | ofSlice (block : List UInt8)

namespace Origin

def make? : Origin l → Option (Cell l)
  | .ofValue value => some (Cell.ofValue l value)
  | .zero => some (Cell.zero l)
  | .ofBytes bytes => ofBytes? l bytes
  | .ofSlice block => ofSlice? l block

def initial : Origin l → List UInt8
  | .ofValue value => l.encode value
  | .zero => List.replicate l.size 0
  | .ofBytes bytes => bytes
  | .ofSlice block => block.take l.size

/-- The value put into the cell; where there is none, the one that its bytes are read as. -/
def stored : Origin l → l.Value
  | .ofValue value => value
  | origin => l.decode origin.initial

/-- There are enough bytes, and no more where a cell takes them all. -/
def Enough : Origin l → Prop
  | .ofValue _ | .zero => True
  | .ofBytes bytes => bytes.length = l.size
  | .ofSlice block => l.size ≤ block.length

theorem make?_isSome_iff (origin : Origin l) : origin.make?.isSome = true ↔ origin.Enough := by
  cases origin with
  | ofValue value => simp [make?, Enough]
  | zero => simp [make?, Enough]
  | ofBytes bytes => simp [make?, Enough, ofBytes?]
  | ofSlice block => simp [make?, Enough, ofSlice?, ofBytes?]

theorem bytes_of_make? {origin : Origin l} {cell : Cell l} (made : origin.make? = some cell) :
    cell.bytes = origin.initial := by
  cases origin with
  | ofValue value => rw [← Option.some.inj made]; rfl
  | zero => rw [← Option.some.inj made]; rfl
  | ofBytes bytes => exact ofBytes?_eq_some_iff.mp made
  | ofSlice block => exact ofBytes?_eq_some_iff.mp made

theorem encode_stored {origin : Origin l} {cell : Cell l} (made : origin.make? = some cell) :
    l.encode origin.stored = cell.bytes := by
  have read : l.encode (l.decode origin.initial) = cell.bytes := by
    rw [← bytes_of_make? made]
    exact cell.encode_get
  cases origin with
  | ofValue value => exact (bytes_of_make? made).symm
  | zero => exact read
  | ofBytes bytes => exact read
  | ofSlice block => exact read

end Origin

/-- How a cell was made, and the values put into it since. -/
structure History (l : Layout) where
  origin : Origin l
  values : List l.Value

namespace History

def cell? (h : History l) : Option (Cell l) := h.origin.make?.map (h.values.foldl set)

/-- The value put into the cell last. -/
def stored (h : History l) : l.Value := h.values.getLast?.getD h.origin.stored

theorem bytes_foldl_set (values : List l.Value) (cell : Cell l) :
    (values.foldl set cell).bytes = (values.getLast?.map l.encode).getD cell.bytes := by
  induction values generalizing cell with
  | nil => rfl
  | cons value values ih =>
    rw [List.foldl_cons, ih, List.getLast?_cons]
    cases values.getLast? <;> rfl

variable {h : History l} {cell : Cell l}

theorem bytes_eq (made : h.cell? = some cell) :
    cell.bytes = (h.values.getLast?.map l.encode).getD h.origin.initial := by
  obtain ⟨first, origin, rfl⟩ := Option.map_eq_some_iff.mp made
  rw [bytes_foldl_set, Origin.bytes_of_make? origin]

/-- Also the bytes that were not put in as a value are the stored form of one. -/
theorem encode_stored (made : h.cell? = some cell) : l.encode h.stored = cell.bytes := by
  obtain ⟨first, origin, rfl⟩ := Option.map_eq_some_iff.mp made
  rw [bytes_foldl_set, stored]
  cases h.values.getLast? with
  | none => exact Origin.encode_stored origin
  | some value => rfl

theorem get_eq (made : h.cell? = some cell) : cell.get = l.scalar.reduce h.stored := by
  rw [get, ← encode_stored made]
  exact l.decode_encode h.stored

end History

/-! Blocks. -/

/-- What is found and what is put at the front of a block. -/
structure Fronts (l : Layout) (block : List UInt8) : Prop where
  ofSlice?_eq_none_iff : ofSlice? l block = none ↔ block.length < l.size
  decodeSlice_faults_iff : l.decodeSlice block = .error .bounds ↔ block.length < l.size
  encodeSlice_faults_iff (value : l.Value) :
    l.encodeSlice value block = .error .bounds ↔ block.length < l.size
  found : l.size ≤ block.length → ∃ cell, ofSlice? l block = some cell ∧
    (∀ behind, ofSlice? l (block.take l.size ++ behind) = some cell) ∧
    l.decodeSlice block = .ok cell.get
  put (value : l.Value) : l.size ≤ block.length → ∃ out, l.encodeSlice value block = .ok out ∧
    out.length = block.length ∧ out.take l.size = l.encode value ∧
    out.drop l.size = block.drop l.size ∧ l.decodeSlice out = .ok (l.scalar.reduce value)

theorem ofSlice?_of_front {front : List UInt8} (exact : front.length = l.size)
    (behind : List UInt8) : ofSlice? l (front ++ behind) = some ⟨front, exact⟩ := by
  rw [ofSlice?, List.take_left' exact, ofBytes?, dif_pos exact]

theorem fronts (l : Layout) (block : List UInt8) : Fronts l block := by
  by_cases enough : l.size ≤ block.length
  · have exact : (block.take l.size).length = l.size := List.length_take_of_le enough
    have found := ofSlice?_of_front exact
    have here : ofSlice? l block = some ⟨block.take l.size, exact⟩ := by
      rw [← found (block.drop l.size), List.take_append_drop]
    have long : ¬ block.length < l.size := Nat.not_lt.mpr enough
    refine ⟨?_, ?_, ?_, ?_, ?_⟩
    · simp [here, long]
    · simp [l.decodeSlice_eq, enough]
    · intro value
      simp [l.encodeSlice_eq, enough]
    · intro _
      exact ⟨_, here, found, (l.decodeSlice_eq block).trans (if_pos enough)⟩
    · intro value _
      have length : (l.encode value ++ block.drop l.size).length = block.length := by
        rw [List.length_append, l.length_encode, List.length_drop, Nat.add_sub_cancel' enough]
      have front : (l.encode value ++ block.drop l.size).take l.size = l.encode value :=
        List.take_left' (l.length_encode value)
      refine ⟨_, (l.encodeSlice_eq value block).trans (if_pos enough), length, front,
        List.drop_left' (l.length_encode value), ?_⟩
      rw [l.decodeSlice_eq, length, if_pos enough, front, l.decode_encode]
  · have short : block.length < l.size := Nat.not_le.mp enough
    have none : ofSlice? l block = none := by
      rw [ofSlice?, ofBytes?, dif_neg (by rw [List.length_take]; omega)]
    have faults (value : l.Value) : l.encodeSlice value block = .error .bounds :=
      (l.encodeSlice_eq value block).trans (if_neg enough)
    exact ⟨iff_of_true none short,
      iff_of_true ((l.decodeSlice_eq block).trans (if_neg enough)) short,
      fun value => iff_of_true (faults value) short, (absurd · enough),
      fun _ => (absurd · enough)⟩

/-- What is known of a cell with its history. -/
structure Holds (h : History l) (cell : Cell l) : Prop where
  length_bytes : cell.bytes.length = l.size
  bytes_eq : cell.bytes = (h.values.getLast?.map l.encode).getD h.origin.initial
  get_eq_decode : cell.get = l.decode cell.bytes
  get_eq_reduce : cell.get = l.scalar.reduce h.stored
  set_get : cell.set cell.get = cell

/-- A cell of any kind and order, made from a value, of zeros, from as many bytes as it takes or
from a block that has as many, has exactly the bytes of the value put into it last, or those it was
made from, and what is taken out is what they are read as; put back it changes nothing, whatever the
bytes. Two cells are equal just when the same is taken out of them, bit by bit, and just when the
values put into them are congruent modulo the stored width. From a block that is too short there is
no cell, and reading or writing a scalar there is a fault; any other is looked at and changed no
further than the width, and what was written is read back reduced to it. -/
theorem cells_hold_scalars (l : Layout) :
    (∀ h : History l, h.cell?.isSome = true ↔ h.origin.Enough) ∧
    (∀ (h : History l) (cell : Cell l), h.cell? = some cell → Holds h cell) ∧
    (∀ (h h' : History l) (cell cell' : Cell l), h.cell? = some cell → h'.cell? = some cell' →
      (cell = cell' ↔ cell.get = cell'.get) ∧
      (cell = cell' ↔ l.scalar.toInt h.stored % 2 ^ (8 * l.size) =
        l.scalar.toInt h'.stored % 2 ^ (8 * l.size))) ∧
    ∀ block : List UInt8, Fronts l block := by
  refine ⟨?_, ?_, ?_, fronts l⟩
  · intro h
    rw [History.cell?, Option.isSome_map]
    exact h.origin.make?_isSome_iff
  · intro h cell made
    exact ⟨cell.length_bytes, History.bytes_eq made, rfl, History.get_eq made, cell.set_get⟩
  · intro h h' cell cell' made made'
    refine ⟨get_inj.symm, ?_⟩
    rw [← bytes_inj, ← History.encode_stored made, ← History.encode_stored made']
    exact l.scalar.encode_eq_encode_iff l.order h.stored h'.stored

/-- A pattern that is not a number, with its payload, from the front of a block; a word too wide for
three bytes and the three bytes that are left of it; a block that is too short; and a number put at
the front of one. -/
theorem cells_hold_scalars_patterns :
    let quiet : History ⟨.big, .binary64⟩ :=
      ⟨.ofSlice [0x7F, 0xF8, 0, 0, 0xDE, 0xAD, 0xBE, 0xEF, 9], []⟩
    let wide : History ⟨.little, .unsigned .w24⟩ := ⟨.zero, [7, 0xAA010203]⟩
    let plain : History ⟨.little, .unsigned .w24⟩ := ⟨.ofBytes [3, 2, 1], []⟩
    (∃ cell, quiet.cell? = some cell ∧
      (cell.set cell.get).bytes = [0x7F, 0xF8, 0, 0, 0xDE, 0xAD, 0xBE, 0xEF]) ∧
    (∃ cell, wide.cell? = some cell ∧ plain.cell? = some cell ∧ cell.get = 0x010203) ∧
    ofSlice? ⟨.big, .unsigned .w48⟩ [1, 2, 3] = none ∧
    ∃ out, (⟨.reversed, .signed .w24⟩ : Layout).encodeSlice 0xFFFFFF85 [0, 0, 0, 7] = .ok out ∧
      (⟨.reversed, .signed .w24⟩ : Layout).decodeSlice out = .ok 0xFFFFFF85 := by
  intro quiet wide plain
  obtain ⟨-, holds, -⟩ := cells_hold_scalars ⟨.big, .binary64⟩
  obtain ⟨made, known, equal, -⟩ := cells_hold_scalars ⟨.little, .unsigned .w24⟩
  obtain ⟨-, -, -, short⟩ := cells_hold_scalars ⟨.big, .unsigned .w48⟩
  obtain ⟨-, -, -, fronts⟩ := cells_hold_scalars ⟨.reversed, .signed .w24⟩
  obtain ⟨cell, first⟩ := Option.isSome_iff_exists.mp ((made wide).mpr trivial)
  obtain ⟨cell', second⟩ := Option.isSome_iff_exists.mp ((made plain).mpr rfl)
  obtain rfl : cell = cell' := (equal wide plain cell cell' first second).2.mpr (by decide)
  have quieted : quiet.cell? = some ⟨[0x7F, 0xF8, 0, 0, 0xDE, 0xAD, 0xBE, 0xEF], rfl⟩ := rfl
  obtain ⟨out, put, -, -, -, back⟩ := (fronts [0, 0, 0, 7]).put 0xFFFFFF85 (by decide)
  refine ⟨⟨_, quieted, congrArg Cell.bytes (holds quiet _ quieted).set_get⟩,
    ⟨cell, first, second, ?_⟩, (short [1, 2, 3]).ofSlice?_eq_none_iff.mpr (by decide),
    out, put, back.trans (by decide)⟩
  exact (known wide cell first).get_eq_reduce.trans (by decide)

end Cell

end BinaryStream
