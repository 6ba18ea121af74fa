import BinaryStream.Proofs.ByteBuffer
import BinaryStream.Proofs.ByteCursor.Reads
import BinaryStream.Proofs.Scalar

/-!
Typed values of any layouts, written one after the other, are read back by the same layouts. The
buffer holds the encodings in a row, so a cursor stands before the encoding of the next value and
after it before that of the one behind; nothing else about the values before matters.
-/
namespace BinaryStream

/-- A value with the layout it is stored in. -/
structure Item where
  layout : Layout
  value : layout.Value

namespace Item

def size (i : Item) : Nat := i.layout.size

def encode (i : Item) : List UInt8 := i.layout.encode i.value

/-- The item as it is read back. -/
def stored (i : Item) : Item := ⟨i.layout, i.layout.scalar.reduce i.value⟩

def totalSize (items : List Item) : Nat := (items.map size).sum

def encodeAll (items : List Item) : List UInt8 := items.flatMap encode

@[simp] theorem totalSize_nil : totalSize [] = 0 := rfl

@[simp] theorem totalSize_cons (i : Item) (items : List Item) :
    totalSize (i :: items) = i.layout.size + totalSize items := rfl

@[simp] theorem totalSize_append (items others : List Item) :
    totalSize (items ++ others) = totalSize items + totalSize others := by
  simp [totalSize]

theorem totalSize_replicate (n : Nat) (i : Item) :
    totalSize (List.replicate n i) = n * i.layout.size := by
  simp [totalSize, size]

theorem encodeAll_cons (i : Item) (items : List Item) :
    encodeAll (i :: items) = i.encode ++ encodeAll items := rfl

theorem encodeAll_append (items others : List Item) :
    encodeAll (items ++ others) = encodeAll items ++ encodeAll others :=
  List.flatMap_append

@[simp] theorem length_encode (i : Item) : i.encode.length = i.layout.size :=
  i.layout.length_encode i.value

@[simp] theorem length_encodeAll (items : List Item) :
    (encodeAll items).length = totalSize items := by
  induction items with
  | nil => rfl
  | cons i items ih => rw [encodeAll_cons, List.length_append, ih, length_encode, totalSize_cons]

end Item

theorem Layout.decode_encode (l : Layout) (value : l.Value) :
    l.decode (l.encode value) = l.scalar.reduce value :=
  l.scalar.decode_encode l.order value

open Item

/-! Writing. -/

namespace ByteBuffer

variable {ε : Type}

def putAll : List Item → Action ByteBuffer ε Unit
  | [] => pure ()
  | i :: items => do
    put i.layout i.value
    putAll items

theorem putAll_of_room {items : List Item} {b : ByteBuffer}
    (room : b.size + totalSize items < Size.blockLimit) :
    (putAll items : Action ByteBuffer ε Unit) b =
      ⟨.value (), ⟨b.bytes ++ encodeAll items⟩, []⟩ := by
  induction items generalizing b with
  | nil =>
    rw [putAll, encodeAll, List.flatMap_nil, List.append_nil]
    rfl
  | cons i items ih =>
    rw [totalSize_cons] at room
    have first : b.size + i.layout.size < Size.blockLimit := by omega
    have wrote := put_apply (ε := ε) i.layout i.value b
    rw [if_pos first] at wrote
    have rest : ByteBuffer.size ⟨b.bytes ++ i.encode⟩ + totalSize items < Size.blockLimit := by
      simp only [size, List.length_append, length_encode] at room ⊢
      omega
    rw [putAll, Action.bind_of_value wrote, Reply.after_nil]
    change putAll items ⟨b.bytes ++ i.encode⟩ = _
    rw [ih rest, encodeAll_cons, List.append_assoc]

/-- A block of memory that cannot hold the items is asked for at one of them. -/
theorem putAll_of_no_room {items : List Item} {b : ByteBuffer}
    (held : b.size < Size.blockLimit) (full : Size.blockLimit ≤ b.size + totalSize items) :
    ((putAll items : Action ByteBuffer ε Unit) b).outcome = .fault .capacity := by
  induction items generalizing b with
  | nil =>
    rw [totalSize_nil] at full
    omega
  | cons i items ih =>
    rw [totalSize_cons] at full
    have wrote := put_apply (ε := ε) i.layout i.value b
    by_cases first : b.size + i.layout.size < Size.blockLimit
    · rw [if_pos first] at wrote
      rw [putAll, Action.bind_of_value wrote, Reply.after_nil]
      apply ih
      · simpa [size] using first
      · simp only [size, List.length_append, Layout.length_encode] at full ⊢
        omega
    · rw [if_neg first] at wrote
      rw [putAll, Action.bind_apply, wrote]

end ByteBuffer

/-! Reading. -/

namespace ByteCursor

def getAll : List Layout → Action ByteCursor AccessError (List Item)
  | [] => pure []
  | l :: layouts => do
    let value ← get l
    let items ← getAll layouts
    pure (⟨l, value⟩ :: items)

variable {c : ByteCursor}

@[simp] theorem window_ofBytes (data : List UInt8) (position : Nat) :
    window { ofBytes data with position } = data := by
  change (data.drop 0).take data.length = data
  rw [List.drop_zero, List.take_length]

theorem Framed.ofBytes {data : List UInt8} (word : data.length < Size.limit) :
    Framed (ByteCursor.ofBytes data) :=
  ⟨word, Nat.le_of_eq (Nat.zero_add _), Nat.zero_le _⟩

namespace Framed

/-- What the window holds from a place on lies inside of it. -/
theorem add_length_le (h : Framed c) {offset : Nat} {bytes rest : List UInt8}
    (place : offset ≤ c.length) (found : c.window.drop offset = bytes ++ rest) :
    offset + bytes.length ≤ c.length := by
  have length := congrArg List.length found
  rw [List.length_drop, h.length_window, List.length_append] at length
  omega

theorem getAt_of_encode (h : Framed c) (i : Item) {offset : Nat} {rest : List UInt8}
    (place : offset ≤ c.length) (found : c.window.drop offset = i.encode ++ rest) :
    getAt i.layout offset c = ⟨.value (i.layout.scalar.reduce i.value), c, []⟩ := by
  have inside := h.add_length_le place found
  rw [i.length_encode] at inside
  rw [h.getAt_apply, if_pos inside, found, List.take_left' i.length_encode, Item.encode,
    Layout.decode_encode]

theorem get_of_encode (h : Framed c) (i : Item) {rest : List UInt8}
    (found : c.window.drop c.position = i.encode ++ rest) :
    get i.layout c = ⟨.value (i.layout.scalar.reduce i.value),
      { c with position := c.position + i.layout.size }, []⟩ := by
  have inside := h.add_length_le h.position_le found
  rw [i.length_encode] at inside
  rw [h.get_apply, if_pos inside, found, List.take_left' i.length_encode, Item.encode,
    Layout.decode_encode]

theorem getAll_of_encodeAll (h : Framed c) {items : List Item} {rest : List UInt8}
    (found : c.window.drop c.position = encodeAll items ++ rest) :
    getAll (items.map Item.layout) c =
      ⟨.value (items.map stored), { c with position := c.position + totalSize items }, []⟩ := by
  induction items generalizing c with
  | nil => rfl
  | cons i items ih =>
    rw [encodeAll_cons, List.append_assoc] at found
    have inside := h.add_length_le h.position_le found
    rw [i.length_encode] at inside
    -- Behind the first item the window continues with the others.
    have behind : c.window.drop (c.position + i.layout.size) = encodeAll items ++ rest := by
      rw [← List.drop_drop, found, List.drop_left' i.length_encode]
    have ran := ih (h.moved inside) behind
    rw [List.map_cons, getAll, Action.bind_of_value (h.get_of_encode i found),
      Action.bind_of_value ran, totalSize_cons, ← Nat.add_assoc]
    rfl

end Framed

end ByteCursor

/-! Arrays. -/

theorem Layout.decodeAll_encode (l : Layout) (values : List l.Value) :
    l.decodeAll values.length (values.flatMap l.encode) = values.map l.scalar.reduce := by
  induction values with
  | nil => rfl
  | cons value values ih =>
    rw [List.length_cons, List.flatMap_cons, decodeAll, List.take_left' (l.length_encode value),
      List.drop_left' (l.length_encode value), ih, l.decode_encode, List.map_cons]

theorem Item.encodeAll_map_mk (l : Layout) (values : List l.Value) :
    encodeAll (values.map (Item.mk l)) = values.flatMap l.encode := by
  rw [encodeAll, List.flatMap_map]
  rfl

theorem Item.totalSize_map_mk (l : Layout) (values : List l.Value) :
    totalSize (values.map (Item.mk l)) = values.length * l.size := by
  induction values with
  | nil => simp
  | cons value values ih =>
    rw [List.map_cons, totalSize_cons, ih, List.length_cons, Nat.succ_mul, Nat.add_comm]

theorem ByteCursor.Framed.getArray_of_encodeAll {c : ByteCursor} (h : Framed c) (l : Layout)
    {values : List l.Value} {rest : List UInt8}
    (found : c.window.drop c.position = encodeAll (values.map (Item.mk l)) ++ rest) :
    getArray l values.length c = ⟨.value (values.map l.scalar.reduce),
      { c with position := c.position + totalSize (values.map (Item.mk l)) }, []⟩ := by
  have inside := h.add_length_le h.position_le found
  have size : (encodeAll (values.map (Item.mk l))).length = values.length * l.size := by
    rw [length_encodeAll, totalSize_map_mk]
  rw [size] at inside
  rw [h.getArray_apply, if_pos inside, found, List.take_left' size, encodeAll_map_mk,
    l.decodeAll_encode, totalSize_map_mk]

/-! A cursor over nothing but items. -/

namespace ByteCursor

def overItems (items : List Item) : ByteCursor := ofBytes (encodeAll items)

theorem length_overItems (items : List Item) : (overItems items).length = totalSize items :=
  length_encodeAll items

theorem overItems_framed {items : List Item} (word : totalSize items < Size.limit) :
    Framed (overItems items) := by
  apply Framed.ofBytes
  rwa [length_encodeAll]

theorem drop_window_overItems (before after : List Item) (position : Nat) :
    (window { overItems (before ++ after) with position }).drop (totalSize before) =
      encodeAll after := by
  change (window { ofBytes (encodeAll (before ++ after)) with position }).drop _ = _
  rw [window_ofBytes, encodeAll_append, List.drop_left' (length_encodeAll before)]

theorem getAll_overItems {before after : List Item}
    (word : totalSize (before ++ after) < Size.limit) :
    getAll (before.map Item.layout) (overItems (before ++ after)) =
      ⟨.value (before.map stored),
        { overItems (before ++ after) with position := totalSize before }, []⟩ := by
  have start := drop_window_overItems [] (before ++ after) 0
  rw [encodeAll_append] at start
  have ran := (overItems_framed word).getAll_of_encodeAll start
  rwa [show (overItems (before ++ after)).position = 0 from rfl, Nat.zero_add] at ran

theorem atEnd_overItems_iff (before after : List Item) :
    atEnd { overItems (before ++ after) with position := totalSize before } = true ↔
      after = [] := by
  change (totalSize before == (overItems (before ++ after)).length) = true ↔ _
  rw [beq_iff_eq, length_overItems, totalSize_append]
  constructor
  · intro last
    cases after with
    | nil => rfl
    | cons i after =>
      have := i.layout.size_pos
      rw [totalSize_cons] at last
      omega
  · rintro rfl
    rfl

theorem get_overItems_of_end {items : List Item} (word : totalSize items < Size.limit)
    (l : Layout) :
    get l { overItems items with position := totalSize items } =
      Action.refuse (.outOfRange (totalSize items) l.size (totalSize items))
        { overItems items with position := totalSize items } := by
  have last : totalSize items ≤ (overItems items).length :=
    Nat.le_of_eq (length_overItems items).symm
  have outside : ¬ totalSize items + l.size ≤ (overItems items).length := by
    have := l.size_pos
    rw [length_overItems]
    omega
  rw [((overItems_framed word).moved last).get_apply, if_neg outside]
  simp only [length_overItems]

theorem getAt_overItems {before after : List Item} {i : Item}
    (word : totalSize (before ++ i :: after) < Size.limit) {position : Nat}
    (inside : position ≤ (overItems (before ++ i :: after)).length) :
    getAt i.layout (totalSize before) { overItems (before ++ i :: after) with position } =
      ⟨.value (i.layout.scalar.reduce i.value),
        { overItems (before ++ i :: after) with position }, []⟩ := by
  have place : totalSize before ≤ (overItems (before ++ i :: after)).length := by
    rw [length_overItems, totalSize_append]
    exact Nat.le_add_right _ _
  have found := drop_window_overItems before (i :: after) position
  exact ((overItems_framed word).moved inside).getAt_of_encode i place found

theorem getArray_overItems {l : Layout} {values : List l.Value}
    (word : totalSize (values.map (Item.mk l)) < Size.limit) :
    getArray l values.length (overItems (values.map (Item.mk l))) =
      ⟨.value (values.map l.scalar.reduce), { overItems (values.map (Item.mk l)) with
        position := totalSize (values.map (Item.mk l)) }, []⟩ := by
  have start := drop_window_overItems [] (values.map (Item.mk l)) 0
  rw [← List.append_nil (encodeAll _)] at start
  have ran := (overItems_framed word).getArray_of_encodeAll l start
  rwa [show (overItems (values.map (Item.mk l))).position = 0 from rfl, Nat.zero_add] at ran

end ByteCursor

/-- Items are written as long as memory can hold them, and what a cursor over the buffer reads is
what was written, reduced to the stored widths. Sequential reads give the items in order and are at
the end exactly after the last, where every read is refused in place. An item is found at the sum of
the sizes before it, wherever the cursor stands, and items of one layout are read at once. -/
theorem items_round_trip (ε : Type) (items : List Item) :
    (Size.blockLimit ≤ totalSize items →
      ((ByteBuffer.putAll items : Action ByteBuffer ε Unit) .empty).outcome = .fault .capacity) ∧
    (totalSize items < Size.blockLimit →
      ∃ b, (ByteBuffer.putAll items : Action ByteBuffer ε Unit) .empty = ⟨.value (), b, []⟩ ∧
        b.size = totalSize items ∧
        let c := ByteCursor.ofBytes b.bytes
        (∀ before after, items = before ++ after →
          let s := { c with position := totalSize before }
          ByteCursor.getAll (before.map Item.layout) c =
            ⟨.value (before.map stored), s, []⟩ ∧ (s.atEnd = true ↔ after = [])) ∧
        (∀ l : Layout, let s := { c with position := totalSize items }
          ByteCursor.get l s =
            Action.refuse (.outOfRange (totalSize items) l.size (totalSize items)) s) ∧
        (∀ before i after, items = before ++ i :: after → ∀ position, position ≤ c.length →
          ByteCursor.getAt i.layout (totalSize before) { c with position } =
            ⟨.value (i.layout.scalar.reduce i.value), { c with position }, []⟩) ∧
        ∀ (l : Layout) (values : List l.Value), items = values.map (Item.mk l) →
          ByteCursor.getArray l values.length c =
            ⟨.value (values.map l.scalar.reduce), { c with position := totalSize items }, []⟩) ∧
    ∀ i ∈ items, let t := i.layout.scalar
      (∀ n : Int, n = t.toInt (t.reduce i.value) ↔
        n % 2 ^ t.width.bits = t.toInt i.value % 2 ^ t.width.bits ∧
          t.range.1 ≤ n ∧ n ≤ t.range.2) ∧
      (t.reduce i.value = i.value ↔ t.range.1 ≤ t.toInt i.value ∧ t.toInt i.value ≤ t.range.2) := by
  have start : ByteBuffer.empty.size + totalSize items = totalSize items := Nat.zero_add _
  refine ⟨?_, ?_, ?_⟩
  · intro full
    exact ByteBuffer.putAll_of_no_room (by decide) (by rwa [start])
  · intro room
    have word : totalSize items < Size.limit := Nat.lt_trans room (by decide)
    refine ⟨⟨encodeAll items⟩, ByteBuffer.putAll_of_room (by rwa [start]),
      length_encodeAll items, ?_⟩
    refine ⟨?_, ByteCursor.get_overItems_of_end word, ?_, ?_⟩
    · rintro before after rfl
      exact ⟨ByteCursor.getAll_overItems word, ByteCursor.atEnd_overItems_iff before after⟩
    · rintro before i after rfl position inside
      exact ByteCursor.getAt_overItems word inside
    · rintro l values rfl
      exact ByteCursor.getArray_overItems word
  · intro i _ t
    exact ⟨t.eq_toInt_reduce_iff i.value, t.reduce_eq_iff i.value⟩

/-- Three kinds in two orders, a word wider than its six bytes among them, the second found from the
end; and as many words as no memory holds. -/
theorem items_round_trip_mixed :
    let items : List Item := [⟨⟨.big, .signed .w24⟩, 0xFFFFFFFE⟩,
      ⟨⟨.little, .binary64⟩, 0x7FF80000DEADBEEF⟩, ⟨⟨.little, .unsigned .w48⟩, 0xAA00000000000005⟩]
    (∃ b, (ByteBuffer.putAll items : Action ByteBuffer Empty Unit) .empty = ⟨.value (), b, []⟩ ∧
      b.size = 17 ∧
      ByteCursor.getAll (items.map Item.layout) (.ofBytes b.bytes) =
        ⟨.value [⟨⟨.big, .signed .w24⟩, 0xFFFFFFFE⟩, ⟨⟨.little, .binary64⟩, 0x7FF80000DEADBEEF⟩,
          ⟨⟨.little, .unsigned .w48⟩, 5⟩], ⟨b.bytes, 0, b.bytes.length, 17⟩, []⟩ ∧
      ByteCursor.getAt ⟨.little, .binary64⟩ 3 ⟨b.bytes, 0, b.bytes.length, 17⟩ =
        ⟨.value 0x7FF80000DEADBEEF, ⟨b.bytes, 0, b.bytes.length, 17⟩, []⟩) ∧
    ((ByteBuffer.putAll (List.replicate 0x1000000000000000 ⟨⟨.little, .unsigned .w64⟩, 1⟩) :
      Action ByteBuffer Empty Unit) .empty).outcome = .fault .capacity := by
  intro items
  obtain ⟨b, wrote, size, read, -, found, -⟩ := (items_round_trip Empty items).2.1 (by decide)
  refine ⟨⟨b, wrote, size, ?_, ?_⟩, ?_⟩
  · exact (read items [] rfl).1
  · exact found [⟨⟨.big, .signed .w24⟩, 0xFFFFFFFE⟩] _ [⟨⟨.little, .unsigned .w48⟩, _⟩] rfl 17
      (Nat.le_of_eq size.symm)
  · refine (items_round_trip Empty (List.replicate 0x1000000000000000 _)).1 ?_
    rw [totalSize_replicate]
    decide

end BinaryStream
