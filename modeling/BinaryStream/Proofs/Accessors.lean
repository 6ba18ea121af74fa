import BinaryStream.Layout.Accessor
import BinaryStream.Proofs.LastWrite
import BinaryStream.Proofs.Positional
import BinaryStream.Proofs.Transparency
import BinaryStream.Proofs.Writers

/-!
The typed accessors mean what their names say. A name is read as a letter, a number of bits and a
byte order, and what an accessor writes or reads is said of these alone: so many low digits of the
value's pattern, in that order, and the number that they stand for, with a sign where the letter
says so. The tables of reads and writes have the same names, so every read has a write that it
undoes.
-/
namespace BinaryStream

open Bytes

namespace Spelling

def size (s : Spelling) : Nat := s.bits / 8

/-- The bytes of a pattern that is cut to the width. -/
def store (s : Spelling) (pattern : Nat) : List UInt8 := s.order.arrange (digits s.size pattern)

/-- The number that bytes stand for; of a float it is the pattern. -/
def number (s : Spelling) (bytes : List UInt8) : Int :=
  let pattern : Int := Bytes.number (s.order.arrange bytes)
  if s.kind = 's' then pattern.bmod (2 ^ s.bits) else pattern

end Spelling

/-- The name of a kind without the letter of an order. -/
def Scalar.stem (t : Scalar) : String := String.ofList (t.letter :: Nat.toDigits 10 t.width.bits)

theorem Scalar.mem_all (t : Scalar) : t ∈ Scalar.all := by
  cases t with
  | unsigned w => cases w <;> decide
  | signed w => cases w <;> decide
  | binary32 => decide
  | binary64 => decide

namespace Layout

/-! The tables. -/

theorem putters_eq : putters = accessors := rfl

theorem placers_eq : placers = accessors := rfl

theorem nodup_names : (accessors.map Prod.fst).Nodup := by
  decide

theorem mem_of_ofAccessor? {name : String} {l : Layout} (found : ofAccessor? name = some l) :
    (name, l) ∈ accessors := by
  obtain ⟨before, after, split, -⟩ := List.lookup_eq_some_iff.mp found
  rw [split]
  exact List.mem_append_right _ List.mem_cons_self

/-- The tables have every kind in every order: the stem alone, and but for bytes with each
letter. -/
theorem ofPutter?_stem :
    ∀ t ∈ Scalar.all, ofPutter? t.stem = some ⟨.native, t⟩ ∧ (1 < t.size →
      ofPutter? (t.stem ++ "r") = some ⟨.reversed, t⟩ ∧
      ofPutter? (t.stem ++ "b") = some ⟨.big, t⟩ ∧
      ofPutter? (t.stem ++ "l") = some ⟨.little, t⟩) := by
  decide

/-! Bytes and numbers of a layout by its name. -/

theorem bits_spelling (l : Layout) : l.spelling.bits = 8 * l.size := l.scalar.width.bits_eq

theorem size_spelling (l : Layout) : l.spelling.size = l.size := by
  rw [Spelling.size, bits_spelling, Nat.mul_div_cancel_left _ (by decide)]

theorem encode_eq_store (l : Layout) (value : l.Value) :
    l.encode value = l.spelling.store value.toNat := by
  rw [Spelling.store, size_spelling]
  exact l.scalar.encode_eq l.order value

theorem toInt_decode (l : Layout) {bytes : List UInt8} (exact : bytes.length = l.size) :
    l.scalar.toInt (l.decode bytes) = l.spelling.number bytes := by
  have plain (other : ∀ w, l.scalar ≠ .signed w) :
      ((l.decode bytes).toNat : Int) = Bytes.number (l.order.arrange bytes) :=
    congrArg Nat.cast (Scalar.toNat_decode other l.order exact)
  obtain ⟨order, scalar⟩ := l
  cases scalar with
  | signed w =>
    refine (Scalar.toInt_decode_signed order exact).trans ?_
    change _ = Int.bmod _ (2 ^ w.bits)
    rw [w.bits_eq]
    rfl
  | unsigned w => exact plain nofun
  | binary32 => exact plain nofun
  | binary64 => exact plain nofun

end Layout

/-! What names promise. -/

/-- The layout that a name stands for, and the bytes of a value under it: as many as the name has
octets of bits, with the number that is left of the value's in so many bits. -/
structure Spelled (l : Layout) (s : Spelling) : Prop where
  kind_eq : s.kind = l.scalar.letter
  order_eq : s.order = l.order
  bits_eq : s.bits = 8 * s.size
  store_eq (value : l.Value) : s.store value.toNat = l.encode value
  length_store (value : l.Value) : (s.store value.toNat).length = s.size
  number_store (value : l.Value) :
    (number (s.order.arrange (s.store value.toNat)) : Int) = l.scalar.toInt value % 2 ^ s.bits

/-- A read at `offset` that leaves its cursor as `after`, or is refused and leaves it as it is. -/
structure Reads (l : Layout) (s : Spelling) (c : ByteCursor) (offset : Nat) (after : ByteCursor)
    (r : Reply ByteCursor AccessError l.Value) : Prop where
  inside : offset + s.size ≤ c.length → ∃ value, r = ⟨.value value, after, []⟩ ∧
    l.scalar.toInt value = s.number ((c.window.drop offset).take s.size)
  outside : c.length < offset + s.size →
    r = Action.refuse (.outOfRange offset s.size c.length) c

/-- The reads of a name, by a cursor and by one that reports them. -/
structure ReadsAs (l : Layout) (s : Spelling) : Prop where
  get {c : ByteCursor} (h : c.Framed) :
    Reads l s c c.position { c with position := c.position + s.size } (ByteCursor.get l c)
  getAt {c : ByteCursor} (h : c.Framed) (offset : Nat) :
    Reads l s c offset c (ByteCursor.getAt l offset c)
  logged_get (c : ByteCursor) : Reply.Mirrors (fun c (s : LoggedCursor) => s.cursor = c)
    (ByteCursor.get l c) (LoggedCursor.get l ⟨c⟩)
  logged_getAt (c : ByteCursor) (offset : Nat) :
    Reply.Mirrors (fun c (s : LoggedCursor) => s.cursor = c) (ByteCursor.getAt l offset c)
      (LoggedCursor.getAt l offset ⟨c⟩)

/-- The writes of a name in order, by each of the writers. -/
structure AppendsAs (ε : Type) (l : Layout) (s : Spelling) : Prop where
  inBuffer (b : ByteBuffer) (value : l.Value) :
    (ByteBuffer.put l value : Action ByteBuffer ε Unit) b =
      if b.size + s.size < Size.blockLimit then
        ⟨.value (), ⟨b.bytes ++ s.store value.toNat⟩, []⟩
      else ⟨.fault .capacity, b, []⟩
  inChunks (c : ChunkList) (value : l.Value) :
    (ChunkList.put l value : Action ChunkList ε Unit) c =
      if c.size + s.size < Size.limit then
        ⟨.value (), ⟨c.chunks ++ [s.store value.toNat], c.size + s.size⟩, []⟩
      else ⟨.fault .overflow, c, []⟩
  inRegion {r : ByteRegion} (valid : r.Valid) (value : l.Value) :
    ByteRegion.put l value r =
      if r.position + s.size ≤ r.capacity then
        ⟨.value (), ⟨overwrite r.memory r.position (s.store value.toNat), r.position + s.size⟩, []⟩
      else Action.refuse (.outOfRange r.position s.size r.capacity) r

/-- The writes of a name at an offset. -/
structure StoresAs (ε : Type) (l : Layout) (s : Spelling) : Prop where
  inBuffer (b : ByteBuffer) {offset : Nat} (value : l.Value)
    (room : offset + s.size < Size.blockLimit) :
    ∃ b', (ByteBuffer.putAt l offset value : Action ByteBuffer ε Unit) b = ⟨.value (), b', []⟩ ∧
      ByteBuffer.Placed b.bytes offset (s.store value.toNat) b'.bytes
  beyondMemory {b : ByteBuffer} (held : b.size < Size.blockLimit) {offset : Nat} (value : l.Value)
    (full : Size.blockLimit ≤ offset + s.size) :
    ∃ f, (ByteBuffer.putAt l offset value : Action ByteBuffer ε Unit) b = ⟨.fault f, b, []⟩
  inRegion {r : ByteRegion} (valid : r.Valid) (offset : Nat) (value : l.Value) :
    ByteRegion.putAt l offset value r =
      if offset + s.size ≤ r.capacity then
        ⟨.value (), { r with memory := overwrite r.memory offset (s.store value.toNat) }, []⟩
      else Action.refuse (.outOfRange offset s.size r.capacity) r

namespace Layout

theorem spelled (l : Layout) : Spelled l l.spelling where
  kind_eq := rfl
  order_eq := rfl
  bits_eq := by rw [l.size_spelling, l.bits_spelling]
  store_eq value := (l.encode_eq_store value).symm
  length_store value := by rw [← l.encode_eq_store, l.length_encode, l.size_spelling]
  number_store value := by
    have low := number_digits l.size value.toNat
    rw [Spelling.store, ByteOrder.arrange_arrange, l.size_spelling, low, l.bits_spelling]
    exact ((l.scalar.toInt_emod value).trans (by push_cast; rfl)).symm

theorem reads_of_ite {l : Layout} {c after : ByteCursor} (h : c.Framed) {offset : Nat}
    {r : Reply ByteCursor AccessError l.Value}
    (ran : r = if offset + l.size ≤ c.length then
        ⟨.value (l.decode ((c.window.drop offset).take l.size)), after, []⟩
      else Action.refuse (.outOfRange offset l.size c.length) c) :
    Reads l l.spelling c offset after r := by
  constructor
  · intro inside
    rw [l.size_spelling] at inside ⊢
    exact ⟨_, ran.trans (if_pos inside), l.toInt_decode (h.length_part inside)⟩
  · intro outside
    rw [l.size_spelling] at outside ⊢
    exact ran.trans (if_neg (Nat.not_le.mpr outside))

theorem readsAs (l : Layout) : ReadsAs l l.spelling where
  get {c} h := by
    apply reads_of_ite h
    rw [l.size_spelling]
    exact h.get_apply l
  getAt {c} h offset := reads_of_ite h (h.getAt_apply l offset)
  logged_get c := LoggedCursor.get_mirrors l c
  logged_getAt c offset := LoggedCursor.getAt_mirrors l offset c

theorem appendsAs (ε : Type) (l : Layout) : AppendsAs ε l l.spelling where
  inBuffer b value := by
    rw [ByteBuffer.put_apply, l.encode_eq_store, l.size_spelling]
  inChunks c value := by
    have ran : (ChunkList.put l value : Action ChunkList ε Unit) c = _ :=
      Payload.inChunks_apply (.typed ⟨l, value⟩) c
    have stored : (Payload.typed ⟨l, value⟩).bytes = l.encode value := rfl
    rw [ran, ChunkList.append, stored, l.length_encode, l.encode_eq_store, l.size_spelling]
  inRegion {r} valid value := by
    rw [ByteRegion.put, valid.write_apply, l.length_encode, l.encode_eq_store, l.size_spelling]

theorem storesAs (ε : Type) (l : Layout) : StoresAs ε l l.spelling where
  inBuffer b offset value room := by
    rw [l.size_spelling, ← l.length_encode value] at room
    refine ⟨_, ByteBuffer.writeAt_apply b room, ?_⟩
    rw [l.encode_eq_store]
    exact ByteBuffer.placed _ _ _
  beyondMemory {b} held offset value full := by
    rw [l.size_spelling, ← l.length_encode value] at full
    exact ByteBuffer.writeAt_of_no_room held full
  inRegion {r} valid offset value := by
    rw [ByteRegion.putAt, valid.writeAt_apply, l.length_encode, l.encode_eq_store,
      l.size_spelling]

end Layout

/-! Reads undo writes. -/

/-- The value is read at `offset` of the bytes, as the next one and at its place. -/
structure ReadsBack (l : Layout) (value : l.Value) (data : List UInt8) (offset : Nat) : Prop where
  getAt : ByteCursor.getAt l offset (.ofBytes data) = ⟨.value value, .ofBytes data, []⟩
  get : ByteCursor.get l { ByteCursor.ofBytes data with position := offset } =
    ⟨.value value, { ByteCursor.ofBytes data with position := offset + l.size }, []⟩

/-- What the writes of a name have stored, its reads give back, as far as the width can hold it. -/
structure Undoes (ε : Type) (l : Layout) : Prop where
  put_inBuffer (b : ByteBuffer) {value : l.Value} (representable : l.scalar.Representable value)
    (room : b.size + l.size < Size.blockLimit) :
    ∃ b', (ByteBuffer.put l value : Action ByteBuffer ε Unit) b = ⟨.value (), b', []⟩ ∧
      ReadsBack l value b'.bytes b.size
  put_inChunks {c : ChunkList} (exact : c.Exact) {value : l.Value}
    (representable : l.scalar.Representable value) (room : c.size + l.size < Size.blockLimit) :
    ∃ c' joined, (ChunkList.put l value : Action ChunkList ε Unit) c = ⟨.value (), c', []⟩ ∧
      c'.join [] = .ok joined ∧ ReadsBack l value joined c.size
  put_inRegion {r : ByteRegion} (valid : r.Valid) {value : l.Value}
    (representable : l.scalar.Representable value) (room : r.position + l.size ≤ r.capacity) :
    ∃ r', ByteRegion.put l value r = ⟨.value (), r', []⟩ ∧ ReadsBack l value r'.memory r.position
  putAt_inBuffer {b : ByteBuffer} (held : b.size < Size.blockLimit) (offset : Nat) {value : l.Value}
    (representable : l.scalar.Representable value) (room : offset + l.size < Size.blockLimit) :
    ∃ b', (ByteBuffer.putAt l offset value : Action ByteBuffer ε Unit) b = ⟨.value (), b', []⟩ ∧
      ReadsBack l value b'.bytes offset
  putAt_inRegion {r : ByteRegion} (valid : r.Valid) (offset : Nat) {value : l.Value}
    (representable : l.scalar.Representable value) (room : offset + l.size ≤ r.capacity) :
    ∃ r', ByteRegion.putAt l offset value r = ⟨.value (), r', []⟩ ∧
      ReadsBack l value r'.memory offset

theorem Write.stop_of_typed {w : Write} {i : Item} (typed : w.payload = .typed i) (position : Nat) :
    w.stop position = w.start position + i.layout.size := by
  rw [stop, bytes, typed, Payload.bytes, i.length_encode]

namespace Layout

variable {l : Layout} {value : l.Value}

theorem decode_encode_of_representable (representable : l.scalar.Representable value) :
    l.decode (l.encode value) = value :=
  (l.decode_encode value).trans ((l.scalar.reduce_eq_iff value).mpr representable)

theorem readsBack (representable : l.scalar.Representable value) {data : List UInt8} {offset : Nat}
    (word : data.length < Size.limit) (inside : offset + l.size ≤ data.length)
    (stored : (data.drop offset).take l.size = l.encode value) : ReadsBack l value data offset where
  getAt := by
    rw [ByteCursor.getAt_ofBytes word l inside, stored,
      decode_encode_of_representable representable]
  get := by
    have framed : ByteCursor.Framed { ByteCursor.ofBytes data with position := offset } :=
      ⟨word, Nat.le_of_eq (Nat.zero_add _), Nat.le_trans (Nat.le_add_right _ _) inside⟩
    have ran := framed.get_apply l
    rw [if_pos (by exact inside), ByteCursor.window_ofBytes, stored,
      decode_encode_of_representable representable] at ran
    exact ran

theorem writes_readsBack {σ ε : Type} {act : Write → Action σ ε Unit} {bytes : σ → List UInt8}
    {cursor : σ → Nat} {Valid : σ → Prop} {Fits : σ → Write → Prop} {s : σ}
    (h : Writes act bytes cursor Valid Fits) (valid : Valid s)
    (representable : l.scalar.Representable value) {w : Write} (fits : Fits s w)
    (typed : w.payload = .typed ⟨l, value⟩) :
    ∃ t, act w s = ⟨.value (), t, []⟩ ∧ ReadsBack l value (bytes t) (w.start (cursor s)) := by
  obtain ⟨t, ran, next, inside, stored⟩ := h.stored valid typed fits
  exact ⟨t, ran, readsBack representable (h.word next) inside stored⟩

theorem undoes (ε : Type) (l : Layout) : Undoes ε l where
  put_inBuffer b value representable room := by
    have held : b.size < Size.blockLimit := Nat.lt_of_le_of_lt (Nat.le_add_right _ _) room
    have fits : (Write.next (.typed ⟨l, value⟩)).stop b.size < Size.blockLimit := by
      rwa [Write.stop_of_typed rfl]
    exact writes_readsBack ByteBuffer.writes held representable fits rfl
  put_inChunks {c} exact value representable room := by
    rw [← l.length_encode value] at room
    have word : c.size + (l.encode value).length < Size.limit := Nat.lt_trans room (by decide)
    have joined : (c.append (.typed ⟨l, value⟩)).join [] =
        .ok (c.chunks.flatten ++ l.encode value) := by
      rw [ChunkList.join_nil (by exact word), if_pos (by exact room), ChunkList.append,
        List.flatten_append, List.flatten_singleton]
      rfl
    have before : c.chunks.flatten.length = c.size := List.length_flatten.trans exact.symm
    refine ⟨_, _, (Payload.inChunks_apply (.typed ⟨l, value⟩) c).trans (if_pos word), joined, ?_⟩
    rw [← before] at word ⊢
    apply readsBack representable
    · rwa [List.length_append]
    · rw [List.length_append, l.length_encode]
    · rw [List.drop_left, ← l.length_encode value, List.take_length]
  put_inRegion {r} valid value representable room := by
    have fits : (Write.next (.typed ⟨l, value⟩)).stop r.position ≤ r.capacity := by
      rwa [Write.stop_of_typed rfl]
    exact writes_readsBack ByteRegion.writes valid representable fits rfl
  putAt_inBuffer {b} held offset value representable room := by
    have fits : (Write.placed offset (.typed ⟨l, value⟩)).stop b.size < Size.blockLimit := by
      rwa [Write.stop_of_typed rfl]
    exact writes_readsBack ByteBuffer.writes held representable fits rfl
  putAt_inRegion {r} valid offset value representable room := by
    have fits : (Write.placed offset (.typed ⟨l, value⟩)).stop r.position ≤ r.capacity := by
      rwa [Write.stop_of_typed rfl]
    exact writes_readsBack ByteRegion.writes valid representable fits rfl

end Layout

open Layout

/-- The three tables have the same names, each once, and every kind of number in every order. A name
of a table is read by its letters as a kind, a width and an order, which are those of its layout: so
the writes of that name append or place so many octets with what is left of the value's pattern in
the order that is named, or nothing; its reads give the number that so many octets stand for, with
its sign where the letter says so, and move past them or not at all; and they give back whatever its
writes have stored and the width can hold. The reversed and the big forms of a kind write the
reverse of what the plain and the little ones write. -/
theorem accessors_mean_names (ε : Type) :
    (putters.map Prod.fst = accessors.map Prod.fst ∧
      placers.map Prod.fst = accessors.map Prod.fst ∧ (accessors.map Prod.fst).Nodup) ∧
    (∀ name l, ofAccessor? name = some l →
      (∃ s, Spelling.ofName? name = some s ∧ Spelled l s ∧ ReadsAs l s) ∧
      ofPutter? name = some l ∧ ofPlacer? name = some l ∧ Undoes ε l) ∧
    (∀ name l, ofPutter? name = some l →
      ∃ s, Spelling.ofName? name = some s ∧ Spelled l s ∧ AppendsAs ε l s) ∧
    (∀ name l, ofPlacer? name = some l →
      ∃ s, Spelling.ofName? name = some s ∧ Spelled l s ∧ StoresAs ε l s) ∧
    ∀ t : Scalar,
      ofPutter? t.stem = some ⟨.native, t⟩ ∧
      (1 < t.size →
        ofPutter? (t.stem ++ "r") = some ⟨.reversed, t⟩ ∧
        ofPutter? (t.stem ++ "b") = some ⟨.big, t⟩ ∧
        ofPutter? (t.stem ++ "l") = some ⟨.little, t⟩) ∧
      ∀ value : t.Value, let plain := (⟨.native, t⟩ : Layout).encode value
        (⟨.little, t⟩ : Layout).encode value = plain ∧
        (⟨.reversed, t⟩ : Layout).encode value = plain.reverse ∧
        (⟨.big, t⟩ : Layout).encode value = plain.reverse := by
  have spelled {name : String} {l : Layout} (found : ofAccessor? name = some l) :
      Spelling.ofName? name = some l.spelling :=
    spelling_of_mem _ (mem_of_ofAccessor? found)
  refine ⟨⟨by rw [putters_eq], by rw [placers_eq], nodup_names⟩, ?_, ?_, ?_, ?_⟩
  · intro name l found
    exact ⟨⟨_, spelled found, l.spelled, l.readsAs⟩, found, found, l.undoes ε⟩
  · intro name l found
    exact ⟨_, spelled found, l.spelled, l.appendsAs ε⟩
  · intro name l found
    exact ⟨_, spelled found, l.spelled, l.storesAs ε⟩
  · intro t
    obtain ⟨plain, others⟩ := ofPutter?_stem t t.mem_all
    exact ⟨plain, others, fun value => ⟨rfl, t.encode_big value, t.encode_big value⟩⟩

/-- A negative number of three bytes, most significant first, behind two bytes; a word that is too
wide for six, against the machine, over the last six of a region; and a read that reaches beyond the
end. -/
theorem accessors_mean_names_odd :
    Spelling.ofName? "s24b" = some ⟨'s', 24, .big⟩ ∧
      (ByteBuffer.put ⟨.big, .signed .w24⟩ 0xFFFFFF85 : Action ByteBuffer Empty Unit) ⟨[1, 2]⟩ =
        ⟨.value (), ⟨[1, 2, 0xFF, 0xFF, 0x85]⟩, []⟩ ∧
      ByteCursor.getAt ⟨.big, .signed .w24⟩ 2 (.ofBytes [1, 2, 0xFF, 0xFF, 0x85]) =
        ⟨.value 0xFFFFFF85, .ofBytes [1, 2, 0xFF, 0xFF, 0x85], []⟩ ∧
      ByteRegion.putAt ⟨.reversed, .unsigned .w48⟩ 1 0xAAAA010203040506
          (.ofMemory [0, 0, 0, 0, 0, 0, 0]) =
        ⟨.value (), .ofMemory [0, 1, 2, 3, 4, 5, 6], []⟩ ∧
      ByteCursor.get ⟨.little, .binary32⟩ (.ofBytes [1, 2, 3]) =
        Action.refuse (.outOfRange 0 4 3) (.ofBytes [1, 2, 3]) := by
  obtain ⟨-, reads, writes, places, -⟩ := accessors_mean_names Empty
  obtain ⟨_, named, -, appends⟩ := writes "s24b" ⟨.big, .signed .w24⟩ (by decide)
  have spelled : Spelling.ofName? "s24b" = some ⟨'s', 24, .big⟩ := by decide
  cases named.symm.trans spelled
  have wrote := (appends.inBuffer ⟨[1, 2]⟩ 0xFFFFFF85).trans (if_pos (by decide))
  obtain ⟨-, -, -, undoes⟩ := reads "s24b" ⟨.big, .signed .w24⟩ (by decide)
  have representable : (Scalar.signed .w24).Representable 0xFFFFFF85 := ⟨by decide, by decide⟩
  obtain ⟨b, again, back⟩ := undoes.put_inBuffer ⟨[1, 2]⟩ representable (by decide)
  obtain rfl := congrArg Reply.state (wrote.symm.trans again)
  obtain ⟨_, named, -, stores⟩ := places "u48r" ⟨.reversed, .unsigned .w48⟩ (by decide)
  cases named.symm.trans (by decide : _ = some ⟨'u', 48, .reversed⟩)
  have placed := stores.inRegion (r := .ofMemory [0, 0, 0, 0, 0, 0, 0]) (.ofMemory (by decide)) 1
    0xAAAA010203040506
  obtain ⟨⟨_, named, -, readsAs⟩, -⟩ := reads "f32l" ⟨.little, .binary32⟩ (by decide)
  cases named.symm.trans (by decide : _ = some ⟨'f', 32, .little⟩)
  have beyond := (readsAs.get (c := .ofBytes [1, 2, 3]) (.ofBytes (by decide))).outside (by decide)
  exact ⟨spelled, wrote, back.getAt, placed.trans (if_pos (by decide)), beyond⟩

end BinaryStream
