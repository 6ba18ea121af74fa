import BinaryStream.Proofs.Write

/-!
Random access through the bytes of a writer. Whatever a run of writes does, a byte that no write
covers any more stays what it is: so what was written last at a place is read there, and where
nothing was written what was there at first. Of a writer it is enough to know that each write places
its payload or changes nothing.
-/
namespace BinaryStream

variable {σ ε : Type} {act : Write → Action σ ε Unit} {bytes : σ → List UInt8} {cursor : σ → Nat}

/-- What there is to know of a writer: in the states it can be in, a write that fits places its
payload where the writer stands or where it says, and any other is not answered and changes nothing.
-/
structure Writes (act : Write → Action σ ε Unit) (bytes : σ → List UInt8) (cursor : σ → Nat)
    (Valid : σ → Prop) (Fits : σ → Write → Prop) : Prop where
  word {s : σ} (valid : Valid s) : (bytes s).length < Size.limit
  placed {s : σ} (valid : Valid s) {w : Write} (fits : Fits s w) :
    ∃ t, act w s = ⟨.value (), t, []⟩ ∧ Valid t ∧
      ByteBuffer.Placed (bytes s) (w.start (cursor s)) w.bytes (bytes t)
  refused {s : σ} (valid : Valid s) {w : Write} (fits : ¬ Fits s w) :
    (act w s).outcome ≠ .value () ∧ (act w s).state = s

/-- A write of the run that is carried out covers byte `i`. -/
def Touched (act : Write → Action σ ε Unit) (cursor : σ → Nat) (i : Nat) : List Write → σ → Prop
  | [], _ => False
  | w :: writes, s =>
    ((act w s).outcome = .value () ∧ w.start (cursor s) ≤ i ∧ i < w.stop (cursor s)) ∨
      Touched act cursor i writes (act w s).state

instance decidableTouched [DecidableEq ε] (act : Write → Action σ ε Unit) (cursor : σ → Nat)
    (i : Nat) : (writes : List Write) → (s : σ) → Decidable (Touched act cursor i writes s)
  | [], _ => inferInstanceAs (Decidable False)
  | w :: writes, s =>
    have := decidableTouched act cursor i writes (act w s).state
    inferInstanceAs (Decidable (_ ∨ Touched act cursor i writes (act w s).state))

namespace Writes

variable {Valid : σ → Prop} {Fits : σ → Write → Prop} {s : σ}

theorem answered_iff (h : Writes act bytes cursor Valid Fits) (valid : Valid s) (w : Write) :
    (act w s).outcome = .value () ↔ Fits s w := by
  by_cases fits : Fits s w
  · obtain ⟨t, ran, -⟩ := h.placed valid fits
    simp [ran, fits]
  · simp [(h.refused valid fits).1, fits]

theorem valid_step (h : Writes act bytes cursor Valid Fits) (valid : Valid s) (w : Write) :
    Valid (act w s).state ∧ (bytes s).length ≤ (bytes (act w s).state).length := by
  by_cases fits : Fits s w
  · obtain ⟨t, ran, next, placed⟩ := h.placed valid fits
    rw [ran]
    exact ⟨next, placed.length_eq ▸ Nat.le_max_left _ _⟩
  · rw [(h.refused valid fits).2]
    exact ⟨valid, Nat.le_refl _⟩

theorem valid_execute (h : Writes act bytes cursor Valid Fits) (valid : Valid s)
    (writes : List Write) :
    Valid (Action.execute act writes s) ∧
      (bytes s).length ≤ (bytes (Action.execute act writes s)).length := by
  apply Action.execute_invariant fun t => Valid t ∧ (bytes s).length ≤ (bytes t).length
  · rintro w t ⟨valid, longer⟩
    obtain ⟨next, grown⟩ := h.valid_step valid w
    exact ⟨next, Nat.le_trans longer grown⟩
  · exact ⟨valid, Nat.le_refl _⟩

/-- A byte outside of the write stays, also when the write is not carried out. -/
theorem kept_step (h : Writes act bytes cursor Valid Fits) (valid : Valid s) {w : Write} {i : Nat}
    (inside : i < (bytes s).length) (outside : (act w s).outcome = .value () →
      ¬ (w.start (cursor s) ≤ i ∧ i < w.stop (cursor s))) :
    (bytes (act w s).state)[i]? = (bytes s)[i]? := by
  by_cases fits : Fits s w
  · obtain ⟨t, ran, -, placed⟩ := h.placed valid fits
    rw [ran] at outside ⊢
    have apart := outside rfl
    apply placed.kept i inside
    simp only [Write.stop] at apart
    omega
  · rw [(h.refused valid fits).2]

theorem kept_of_untouched (h : Writes act bytes cursor Valid Fits) (valid : Valid s)
    {writes : List Write} {i : Nat} (inside : i < (bytes s).length)
    (untouched : ¬ Touched act cursor i writes s) :
    (bytes (Action.execute act writes s))[i]? = (bytes s)[i]? := by
  induction writes generalizing s with
  | nil => rfl
  | cons w writes ih =>
    obtain ⟨first, others⟩ := not_or.mp untouched
    obtain ⟨next, grown⟩ := h.valid_step valid w
    have rest := ih next (Nat.lt_of_lt_of_le inside grown) others
    exact rest.trans (h.kept_step valid inside fun done covers => first ⟨done, covers⟩)

theorem stretch_of_untouched (h : Writes act bytes cursor Valid Fits) (valid : Valid s)
    {writes : List Write} {offset size : Nat} (inside : offset + size ≤ (bytes s).length)
    (untouched : ∀ i, offset ≤ i → i < offset + size → ¬ Touched act cursor i writes s) :
    ((bytes (Action.execute act writes s)).drop offset).take size =
      ((bytes s).drop offset).take size := by
  apply List.ext_getElem?
  intro i
  by_cases within : i < size
  · rw [List.getElem?_take_of_lt within, List.getElem?_take_of_lt within, List.getElem?_drop,
      List.getElem?_drop]
    exact h.kept_of_untouched valid (by omega) (untouched _ (by omega) (by omega))
  · simp [within]

end Writes

theorem ByteBuffer.Placed.stretch_eq {old payload new : List UInt8} {offset : Nat}
    (placed : Placed old offset payload new) :
    offset + payload.length ≤ new.length ∧ (new.drop offset).take payload.length = payload := by
  have length := placed.length_eq
  refine ⟨by omega, ?_⟩
  apply List.ext_getElem?
  intro i
  by_cases within : i < payload.length
  · rw [List.getElem?_take_of_lt within, List.getElem?_drop]
    exact placed.payload_eq i within
  · simp [within]

/-- A typed value that fits stands at its place afterwards. -/
theorem Writes.stored {Valid : σ → Prop} {Fits : σ → Write → Prop} {s : σ}
    (h : Writes act bytes cursor Valid Fits) (valid : Valid s) {w : Write} {item : Item}
    (typed : w.payload = .typed item) (fits : Fits s w) :
    let offset := w.start (cursor s)
    ∃ t, act w s = ⟨.value (), t, []⟩ ∧ Valid t ∧ offset + item.layout.size ≤ (bytes t).length ∧
      ((bytes t).drop offset).take item.layout.size = item.encode := by
  obtain ⟨t, ran, next, placed⟩ := h.placed valid fits
  have encoded : w.bytes = item.encode := by rw [Write.bytes, typed, Payload.bytes]
  rw [encoded] at placed
  have stretch := placed.stretch_eq
  rw [item.length_encode] at stretch
  exact ⟨t, ran, next, stretch⟩

/-! Reads. -/

theorem ByteCursor.getAt_ofBytes {data : List UInt8} (word : data.length < Size.limit) (l : Layout)
    {offset : Nat} (inside : offset + l.size ≤ data.length) :
    getAt l offset (ofBytes data) =
      ⟨.value (l.decode ((data.drop offset).take l.size)), ofBytes data, []⟩ := by
  have window : (ofBytes data).window = data := window_ofBytes data 0
  rw [(Framed.ofBytes word).getAt_apply, if_pos (by exact inside), window]

/-- Reads over writes. -/
structure ReadsLast (act : Write → Action σ ε Unit) (bytes : σ → List UInt8) (cursor : σ → Nat)
    (s : σ) : Prop where
  /-- A typed value that was stored, and that no later write overlaps, is read at its place. -/
  written (before : List Write) (w : Write) (after : List Write) (item : Item) :
    let t := Action.execute act before s
    let offset := w.start (cursor t)
    let final := Action.execute act (before ++ w :: after) s
    w.payload = .typed item → (act w t).outcome = .value () →
    (∀ i, offset ≤ i → i < offset + item.size → ¬ Touched act cursor i after (act w t).state) →
    (ByteCursor.getAt item.layout offset (.ofBytes (bytes final))).outcome =
      .value (item.layout.scalar.reduce item.value)
  /-- Where nothing was written, a read gives what it gave at first. -/
  untouched (writes : List Write) (l : Layout) (offset : Nat) :
    let final := Action.execute act writes s
    offset + l.size ≤ (bytes s).length →
    (∀ i, offset ≤ i → i < offset + l.size → ¬ Touched act cursor i writes s) →
    (ByteCursor.getAt l offset (.ofBytes (bytes final))).outcome =
      (ByteCursor.getAt l offset (.ofBytes (bytes s))).outcome

theorem Writes.readsLast {Valid : σ → Prop} {Fits : σ → Write → Prop} {s : σ}
    (h : Writes act bytes cursor Valid Fits) (valid : Valid s) : ReadsLast act bytes cursor s where
  written before w after item := by
    intro t offset final typed done later
    have now := (h.valid_execute valid before).1
    have fits := (h.answered_iff now w).mp done
    obtain ⟨u, ran, next, inside, stretch⟩ := h.stored now typed fits
    obtain ⟨last, longer⟩ := h.valid_execute next after
    have split : final = Action.execute act after u := by
      simp only [final, Action.execute_append, Action.execute]
      exact congrArg (fun r => Action.execute act after r.state) ran
    rw [ran] at later
    have kept := h.stretch_of_untouched next inside later
    rw [ByteCursor.getAt_ofBytes (by rw [split]; exact h.word last) _
      (by rw [split]; exact Nat.le_trans inside longer), split, kept, stretch]
    exact congrArg Outcome.value (item.layout.decode_encode item.value)
  untouched writes l offset := by
    intro final inside untouched
    obtain ⟨last, longer⟩ := h.valid_execute valid writes
    rw [ByteCursor.getAt_ofBytes (h.word last) _ (Nat.le_trans inside longer),
      ByteCursor.getAt_ofBytes (h.word valid) _ inside,
      h.stretch_of_untouched valid inside untouched]

/-! The two writers. -/

namespace ByteBuffer

variable {b : ByteBuffer}

theorem writeAt_of_no_room {offset : Nat} {payload : List UInt8}
    (held : b.size < Size.blockLimit) (full : Size.blockLimit ≤ offset + payload.length) :
    ∃ f, (writeAt offset payload : Action ByteBuffer ε Unit) b = ⟨.fault f, b, []⟩ := by
  cases stop : Size.add? offset payload.length with
  | none => exact ⟨.overflow, by rw [writeAt, stop]; rfl⟩
  | some total =>
    obtain ⟨-, rfl⟩ := Size.add?_eq_some_iff.mp stop
    have padded := extendTo_apply (ε := ε) (offset + payload.length) 0 b
    rw [if_neg (by omega)] at padded
    refine ⟨.capacity, ?_⟩
    simp only [writeAt, stop]
    rw [Action.bind_apply, padded]

/-- Behind the end there is nothing to overwrite and no gap to fill. -/
theorem overwrite_padTo_length (old payload : List UInt8) :
    Bytes.overwrite (Bytes.padTo old (old.length + payload.length) 0) old.length payload =
      old ++ payload := by
  rw [Bytes.padTo, Bytes.overwrite_append_length, Nat.add_sub_cancel_left,
    List.drop_eq_nil_of_le (by simp), List.append_nil]

theorem placed_append (old payload : List UInt8) :
    Placed old old.length payload (old ++ payload) := by
  have made := placed old old.length payload
  rwa [overwrite_padTo_length] at made

theorem placed_of_inside {old payload : List UInt8} {offset : Nat}
    (inside : offset + payload.length ≤ old.length) :
    Placed old offset payload (Bytes.overwrite old offset payload) := by
  have made := placed old offset payload
  rwa [Bytes.padTo_of_le inside] at made

/-- A buffer takes what memory can hold. -/
theorem writes : Writes (Write.inBuffer : Write → Action ByteBuffer ε Unit) ByteBuffer.bytes size
    (fun b => b.size < Size.blockLimit) (fun b w => w.stop b.size < Size.blockLimit) where
  word held := Nat.lt_trans held (by decide)
  placed {b} held w fits := by
    cases w with
    | next payload =>
      refine ⟨b.append payload, (payload.inBuffer_apply b).trans (if_pos fits), ?_, ?_⟩
      · rwa [size_append]
      · exact placed_append b.bytes payload.bytes
    | placed offset payload =>
      have made := placed b.bytes offset payload.bytes
      refine ⟨_, (congrFun (Write.inBuffer_placed offset payload) b).trans (writeAt_apply b fits),
        ?_, made⟩
      rw [size, made.length_eq]
      exact Nat.max_lt.mpr ⟨held, fits⟩
  refused {b} held w fits := by
    cases w with
    | next payload =>
      have ran : (Write.inBuffer (.next payload) : Action ByteBuffer ε Unit) b = _ :=
        (payload.inBuffer_apply b).trans (if_neg fits)
      simp [ran]
    | placed offset payload =>
      have full : Size.blockLimit ≤ offset + payload.bytes.length := Nat.not_lt.mp fits
      obtain ⟨f, ran⟩ := writeAt_of_no_room (ε := ε) held full
      simp [Write.inBuffer_placed, ran]

end ByteBuffer

theorem ByteRegion.Valid.overwritten {r : ByteRegion} (h : r.Valid) {offset position : Nat}
    {payload : List UInt8} (inside : offset + payload.length ≤ r.capacity)
    (within : position ≤ r.capacity) :
    ByteRegion.Valid ⟨Bytes.overwrite r.memory offset payload, position⟩ := by
  have same : ByteRegion.capacity ⟨Bytes.overwrite r.memory offset payload, position⟩ =
      r.capacity := Bytes.length_overwrite inside
  refine ⟨?_, ?_⟩
  · rw [same]
    exact h.capacity_lt
  · rw [same]
    exact within

/-- A region takes what lies inside of it. -/
theorem ByteRegion.writes : Writes Write.inRegion ByteRegion.memory ByteRegion.position
    ByteRegion.Valid (fun r w => w.stop r.position ≤ r.capacity) where
  word valid := valid.capacity_lt
  placed {r} valid w fits := by
    cases w with
    | next payload =>
      have ran := (valid.write_apply payload.bytes).trans (if_pos fits)
      exact ⟨_, (congrFun payload.inRegion_eq r).trans ran, valid.overwritten fits fits,
        ByteBuffer.placed_of_inside fits⟩
    | placed offset payload =>
      have ran := (valid.writeAt_apply offset payload.bytes).trans (if_pos fits)
      exact ⟨_, (congrFun (Write.inRegion_placed offset payload) r).trans ran,
        valid.overwritten fits valid.position_le, ByteBuffer.placed_of_inside fits⟩
  refused {r} valid w fits := by
    cases w with
    | next payload =>
      have ran := (valid.write_apply payload.bytes).trans (if_neg fits)
      simp [Write.inRegion, payload.inRegion_eq, ran]
    | placed offset payload =>
      have ran := (valid.writeAt_apply offset payload.bytes).trans (if_neg fits)
      simp [Write.inRegion_placed, ran]

/-- From any buffer and any region, and whatever raw and typed writes there are, in order or at any
offsets: a typed value that was stored and that no later write overlaps is read at its place,
reduced to the width it is stored in, and where no write has come a read gives what it gave at
first. Writes that fail count for nothing; in a buffer they are those that memory cannot hold, in a
region those that do not lie inside. -/
theorem last_write_is_read (ε : Type) :
    (∀ b : ByteBuffer, b.size < Size.blockLimit →
      ReadsLast (Write.inBuffer : Write → Action ByteBuffer ε Unit) ByteBuffer.bytes ByteBuffer.size
        b ∧
      ∀ writes (w : Write),
        let t := Action.execute (Write.inBuffer : Write → Action ByteBuffer ε Unit) writes b
        (w.inBuffer t : Reply ByteBuffer ε Unit).outcome = .value () ↔
          w.stop t.size < Size.blockLimit) ∧
    ∀ r : ByteRegion, r.Valid →
      ReadsLast Write.inRegion ByteRegion.memory ByteRegion.position r ∧
      ∀ writes (w : Write), let t := Action.execute Write.inRegion writes r
        (w.inRegion t).outcome = .value () ↔ w.stop t.position ≤ t.capacity := by
  constructor
  · intro b held
    refine ⟨ByteBuffer.writes.readsLast held, ?_⟩
    intro writes w t
    exact ByteBuffer.writes.answered_iff (ByteBuffer.writes.valid_execute held writes).1 w
  · intro r valid
    refine ⟨ByteRegion.writes.readsLast valid, ?_⟩
    intro writes w t
    exact ByteRegion.writes.answered_iff (ByteRegion.writes.valid_execute valid writes).1 w

/-- A value of three bytes is patched in and written up to on both sides. In the region one more
write, over it, is refused. -/
theorem last_write_is_read_patched :
    let item : Item := ⟨⟨.little, .signed .w24⟩, 0x00FFFFFE⟩
    let before : List Write := [.next (.raw [1, 2, 3, 4, 5, 6])]
    let after : List Write := [.placed 0 (.raw [9, 9]), .placed 5 (.raw [8]), .next (.raw [7])]
    let b : ByteBuffer := Action.execute (Write.inBuffer : Write → Action ByteBuffer Empty Unit)
      (before ++ .placed 2 (.typed item) :: after) .empty
    let r := Action.execute Write.inRegion
      (before ++ .placed 2 (.typed item) :: .placed 3 (.raw [0, 0, 0, 0]) :: after)
      (.ofMemory [0, 0, 0, 0, 0, 0])
    (ByteCursor.getAt item.layout 2 (.ofBytes b.bytes)).outcome = .value 0xFFFFFFFE ∧
      (ByteCursor.getAt item.layout 2 (.ofBytes r.memory)).outcome = .value 0xFFFFFFFE ∧
      b.bytes = [9, 9, 0xFE, 0xFF, 0xFF, 8, 7] ∧ r.memory = [9, 9, 0xFE, 0xFF, 0xFF, 8] := by
  intro item before after b r
  have buffer := ((last_write_is_read Empty).1 .empty (by decide)).1
  have region := ((last_write_is_read Empty).2 (.ofMemory [0, 0, 0, 0, 0, 0])
    (.ofMemory (by decide))).1
  have place : ∀ i, 2 ≤ i → i < 2 + item.size → i = 2 ∨ i = 3 ∨ i = 4 := by
    intro i low high
    change i < 2 + 3 at high
    omega
  refine ⟨buffer.written before (.placed 2 (.typed item)) after item rfl (by decide) ?_,
    region.written before (.placed 2 (.typed item)) (.placed 3 (.raw [0, 0, 0, 0]) :: after) item
      rfl (by decide) ?_, by decide, by decide⟩
  · intro i low high
    rcases place i low high with rfl | rfl | rfl <;> decide
  · intro i low high
    rcases place i low high with rfl | rfl | rfl <;> decide

end BinaryStream
