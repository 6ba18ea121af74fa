import BinaryStream.Proofs.Write

/-!
The writers of bytes agree. Written one behind the other, payloads make the same bytes in a buffer,
in the chunks of a list and at the front of a region. A buffer and a region stay in step also while
earlier bytes are replaced: the region then holds the bytes of the buffer and behind them what its
memory held before.
-/
namespace BinaryStream

variable {ε : Type}

/-! Payloads one behind the other. -/

namespace ByteBuffer

theorem foldl_append (payloads : List Payload) (b : ByteBuffer) :
    payloads.foldl append b = ⟨b.bytes ++ payloads.flatMap Payload.bytes⟩ := by
  induction payloads generalizing b with
  | nil => simp
  | cons payload payloads ih =>
    rw [List.foldl_cons, ih, append, List.flatMap_cons, List.append_assoc]

end ByteBuffer

namespace ChunkList

theorem foldl_append (payloads : List Payload) (c : ChunkList) :
    payloads.foldl append c = ⟨c.chunks ++ payloads.map Payload.bytes,
      c.size + (payloads.flatMap Payload.bytes).length⟩ := by
  have total : (payloads.flatMap Payload.bytes).length =
      ((payloads.map Payload.bytes).map List.length).sum := by
    rw [List.flatMap_def, List.length_flatten]
  rw [total]
  exact foldl_extend Payload.bytes payloads c

theorem intercalate_nil (chunks : List (List UInt8)) :
    ([] : List UInt8).intercalate chunks = chunks.flatten := by
  induction chunks with
  | nil => rfl
  | cons chunk chunks ih =>
    cases chunks with
    | nil => simp
    | cons next chunks => simp_all [List.intercalate]

/-- Without separators the chunks are joined to their bytes. -/
theorem join_nil {c : ChunkList} (word : c.size < Size.limit) :
    c.join [] =
      if c.size < Size.blockLimit then .ok c.chunks.flatten else .error .capacity := by
  rw [join_apply, List.length_nil, Nat.zero_mul, Nat.add_zero, if_pos word, intercalate_nil]

end ChunkList

/-! Buffers and regions in step. -/

/-- What the write makes of the bytes that were written before. -/
def Write.apply (bytes : List UInt8) : Write → List UInt8
  | .next payload => bytes ++ payload.bytes
  | .placed offset payload => Bytes.overwrite bytes offset payload.bytes

/-- A positional write replaces bytes that were written before: of them there are `size`. -/
def Write.Patches (size : Nat) : Write → Prop
  | .next _ => True
  | .placed offset payload => offset + payload.bytes.length ≤ size

/-- Every positional write of the run replaces bytes that were written before it. -/
def Patching : Nat → List Write → Prop
  | _, [] => True
  | size, w :: writes => w.Patches size ∧ Patching (size + w.advance) writes

/-- The bytes that a run adds behind those before it. -/
def appended (writes : List Write) : Nat := (writes.map Write.advance).sum

theorem Patching.of_append {before after : List Write} {size : Nat}
    (patching : Patching size (before ++ after)) : Patching size before := by
  induction before generalizing size with
  | nil => trivial
  | cons w before ih => exact ⟨patching.1, ih patching.2⟩

theorem length_apply {w : Write} {bytes : List UInt8} (patches : w.Patches bytes.length) :
    (w.apply bytes).length = bytes.length + w.advance := by
  cases w with
  | next payload => exact List.length_append
  | placed offset payload => exact Bytes.length_overwrite patches

/-- The region holds what the buffer holds, and behind it what its memory held at first. -/
structure InStep (memory : List UInt8) (b : ByteBuffer) (r : ByteRegion) : Prop where
  room : b.size ≤ memory.length
  memory_eq : r.memory = b.bytes ++ memory.drop b.size
  position_eq : r.position = b.size

namespace InStep

variable {memory : List UInt8} {b : ByteBuffer} {r : ByteRegion}

theorem start (memory : List UInt8) : InStep memory .empty (.ofMemory memory) :=
  ⟨Nat.zero_le _, rfl, rfl⟩

theorem capacity_eq (h : InStep memory b r) : r.capacity = memory.length := by
  rw [ByteRegion.capacity, h.memory_eq, List.length_append, List.length_drop]
  exact Nat.add_sub_cancel' h.room

theorem valid (h : InStep memory b r) (block : memory.length < Size.blockLimit) : r.Valid := by
  refine ⟨?_, ?_⟩
  · rw [h.capacity_eq]
    exact Nat.lt_trans block (by decide)
  · rw [h.capacity_eq, h.position_eq]
    exact h.room

/-- A write that replaces earlier bytes, or for which there is room, keeps both in step. -/
theorem step (h : InStep memory b r) (block : memory.length < Size.blockLimit) {w : Write}
    (patches : w.Patches b.size) (room : b.size + w.advance ≤ memory.length) :
    ∃ b' r', (w.inBuffer : Action ByteBuffer ε Unit) b = ⟨.value (), b', []⟩ ∧
      w.inRegion r = ⟨.value (), r', []⟩ ∧ b'.bytes = w.apply b.bytes ∧ InStep memory b' r' := by
  have capacity := h.capacity_eq
  have position := h.position_eq
  cases w with
  | next payload =>
    have space : b.size + payload.bytes.length ≤ memory.length := room
    have wrote := payload.inBuffer_apply (ε := ε) b
    rw [if_pos (by omega)] at wrote
    have stored := (h.valid block).write_apply payload.bytes
    rw [if_pos (by omega)] at stored
    rw [h.memory_eq, position] at stored
    have grown := ByteBuffer.size_append payload b
    refine ⟨_, _, wrote, (congrFun payload.inRegion_eq r).trans stored, rfl, ?_, ?_, grown.symm⟩
    · rwa [grown]
    · rw [grown, ← List.drop_drop]
      exact Bytes.overwrite_append_length _ _ _
  | placed offset payload =>
    have inside : offset + payload.bytes.length ≤ b.bytes.length := patches
    have before := h.room
    have wrote : (ByteBuffer.writeAt offset payload.bytes : Action ByteBuffer ε Unit) b = _ :=
      ByteBuffer.writeAt_apply b (Nat.lt_of_le_of_lt (Nat.le_trans inside before) block)
    rw [Bytes.padTo_of_le inside] at wrote
    have stored := (h.valid block).writeAt_apply offset payload.bytes
    rw [if_pos (by rw [capacity]; exact Nat.le_trans inside before), h.memory_eq,
      Bytes.overwrite_append_of_le inside] at stored
    have same := Bytes.length_overwrite inside
    refine ⟨_, _, (congrFun (Write.inBuffer_placed offset payload) b).trans wrote,
      (congrFun (Write.inRegion_placed offset payload) r).trans stored, rfl, ?_, ?_, ?_⟩
    · simpa [ByteBuffer.size, same] using before
    · simp [ByteBuffer.size, same]
    · simpa [ByteBuffer.size, same] using position

theorem run (h : InStep memory b r) (block : memory.length < Size.blockLimit) {writes : List Write}
    (patching : Patching b.size writes) (room : b.size + appended writes ≤ memory.length) :
    ∃ b' r', (Action.perform Write.inBuffer writes b : Reply ByteBuffer ε Unit) =
        ⟨.value (), b', []⟩ ∧
      Action.perform Write.inRegion writes r = ⟨.value (), r', []⟩ ∧
      b'.bytes = writes.foldl Write.apply b.bytes ∧ b'.size = b.size + appended writes ∧
      InStep memory b' r' := by
  induction writes generalizing b r with
  | nil => exact ⟨b, r, rfl, rfl, rfl, rfl, h⟩
  | cons w writes ih =>
    obtain ⟨patches, later⟩ := patching
    rw [appended, List.map_cons, List.sum_cons, ← Nat.add_assoc] at room
    obtain ⟨b₁, r₁, wrote, stored, bytes, next⟩ :=
      h.step (ε := ε) block patches (Nat.le_trans (Nat.le_add_right _ _) room)
    have size : b₁.size = b.size + w.advance := by
      rw [ByteBuffer.size, bytes, length_apply patches]
      rfl
    obtain ⟨b', r', ran, ran', all, total, last⟩ :=
      ih next (by rwa [size]) (by rwa [size])
    refine ⟨b', r', ?_, ?_, ?_, ?_, last⟩
    · rw [Action.perform_of_value wrote, ran]
    · rw [Action.perform_of_value stored, ran']
    · rw [all, bytes, List.foldl_cons]
    · rw [total, size, appended, appended, List.map_cons, List.sum_cons, Nat.add_assoc]

end InStep

/-! Both together. -/

theorem patching_map_next (payloads : List Payload) (size : Nat) :
    Patching size (payloads.map Write.next) := by
  induction payloads generalizing size with
  | nil => trivial
  | cons payload payloads ih => exact ⟨trivial, ih _⟩

theorem appended_map_next (payloads : List Payload) :
    appended (payloads.map Write.next) = (payloads.flatMap Payload.bytes).length := by
  rw [List.length_flatMap, appended, List.map_map]
  rfl

namespace Payload

theorem perform_inBuffer {payloads : List Payload}
    (room : (payloads.flatMap Payload.bytes).length < Size.blockLimit) :
    (Action.perform Payload.inBuffer payloads .empty : Reply ByteBuffer ε Unit) =
      ⟨.value (), ⟨payloads.flatMap Payload.bytes⟩, []⟩ := by
  have total : ByteBuffer.empty.size + (payloads.map fun payload => payload.bytes.length).sum <
      Size.blockLimit := by
    simpa [List.length_flatMap] using room
  rw [Action.perform_of_room Payload.inBuffer_apply ByteBuffer.size_append total,
    ByteBuffer.foldl_append]
  rfl

theorem perform_inBuffer_of_no_room {payloads : List Payload}
    (full : Size.blockLimit ≤ (payloads.flatMap Payload.bytes).length) :
    (Action.perform Payload.inBuffer payloads .empty : Reply ByteBuffer ε Unit).outcome =
      .fault .capacity := by
  apply Action.perform_of_no_room Payload.inBuffer_apply ByteBuffer.size_append (by decide)
  simpa [List.length_flatMap] using full

theorem perform_inChunks {payloads : List Payload}
    (room : (payloads.flatMap Payload.bytes).length < Size.limit) :
    (Action.perform Payload.inChunks payloads .empty : Reply ChunkList ε Unit) =
      ⟨.value (), ⟨payloads.map Payload.bytes, (payloads.flatMap Payload.bytes).length⟩, []⟩ := by
  have total : ChunkList.empty.size + (payloads.map fun payload => payload.bytes.length).sum <
      Size.limit := by
    simpa [List.length_flatMap] using room
  rw [Action.perform_of_room Payload.inChunks_apply (fun _ _ => rfl) total,
    ChunkList.foldl_append, ChunkList.size_empty, Nat.zero_add]
  rfl

theorem perform_inChunks_of_no_room {payloads : List Payload}
    (full : Size.limit ≤ (payloads.flatMap Payload.bytes).length) :
    (Action.perform Payload.inChunks payloads .empty : Reply ChunkList ε Unit).outcome =
      .fault .overflow := by
  apply Action.perform_of_no_room Payload.inChunks_apply (fun _ _ => rfl) (by decide)
  simpa [List.length_flatMap] using full

theorem perform_inRegion {payloads : List Payload} {memory : List UInt8}
    (block : memory.length < Size.blockLimit)
    (room : (payloads.flatMap Payload.bytes).length ≤ memory.length) :
    let all := payloads.flatMap Payload.bytes
    Action.perform Payload.inRegion payloads (.ofMemory memory) =
      ⟨.value (), ⟨all ++ memory.drop all.length, all.length⟩, []⟩ := by
  intro all
  have wrote : (Action.perform Write.inBuffer (payloads.map Write.next) .empty :
      Reply ByteBuffer Empty Unit) = ⟨.value (), ⟨all⟩, []⟩ := by
    rw [Action.perform_map]
    exact perform_inBuffer (Nat.lt_of_le_of_lt room block)
  obtain ⟨b, ⟨bytes, position⟩, ran, stored, -, -, -, rfl, rfl⟩ :=
    (InStep.start memory).run (ε := Empty) block (patching_map_next payloads _)
      (by simpa [appended_map_next] using room)
  cases ran.symm.trans wrote
  rw [Action.perform_map] at stored
  exact stored

end Payload

/-- Payloads one behind the other, raw or typed, make the same bytes everywhere. A buffer ends with
them and a list of chunks with one chunk for each, which are joined to them; a region that is large
enough takes every one and holds them before the rest of its memory. A buffer, a list and the join
fail where there is no room for all. If positional writes come between that replace bytes written
before, then after each of the writes the buffer holds what the region holds before its position. -/
theorem writers_agree (ε : Type) :
    (∀ payloads : List Payload, let all := payloads.flatMap Payload.bytes
      let inBuffer : Reply ByteBuffer ε Unit := Action.perform Payload.inBuffer payloads .empty
      let inChunks : Reply ChunkList ε Unit := Action.perform Payload.inChunks payloads .empty
      (all.length < Size.blockLimit → inBuffer = ⟨.value (), ⟨all⟩, []⟩) ∧
      (Size.blockLimit ≤ all.length → inBuffer.outcome = .fault .capacity) ∧
      (all.length < Size.limit →
        inChunks = ⟨.value (), ⟨payloads.map Payload.bytes, all.length⟩, []⟩ ∧
        inChunks.state.join [] =
          if all.length < Size.blockLimit then .ok all else .error .capacity) ∧
      (Size.limit ≤ all.length → inChunks.outcome = .fault .overflow) ∧
      ∀ memory : List UInt8, memory.length < Size.blockLimit → all.length ≤ memory.length →
        Action.perform Payload.inRegion payloads (.ofMemory memory) =
          ⟨.value (), ⟨all ++ memory.drop all.length, all.length⟩, []⟩) ∧
    ∀ (memory : List UInt8) (before after : List Write), memory.length < Size.blockLimit →
      Patching 0 (before ++ after) → appended (before ++ after) ≤ memory.length →
      ∃ b r, (Action.perform Write.inBuffer before .empty : Reply ByteBuffer ε Unit) =
          ⟨.value (), b, []⟩ ∧
        Action.perform Write.inRegion before (.ofMemory memory) = ⟨.value (), r, []⟩ ∧
        b.bytes = r.memory.take r.position ∧ r.position = appended before ∧
        b.bytes = before.foldl Write.apply [] ∧
        r.memory.drop r.position = memory.drop r.position := by
  constructor
  · intro payloads all inBuffer inChunks
    refine ⟨Payload.perform_inBuffer, Payload.perform_inBuffer_of_no_room, ?_,
      Payload.perform_inChunks_of_no_room, fun memory => Payload.perform_inRegion⟩
    intro word
    have written : inChunks = _ := Payload.perform_inChunks word
    refine ⟨written, ?_⟩
    rw [written, ChunkList.join_nil word, ← List.flatMap_def]
  · intro memory before after block patching room
    rw [appended, List.map_append, List.sum_append] at room
    have fits : ByteBuffer.empty.size + appended before ≤ memory.length := by
      simpa [appended] using Nat.le_trans (Nat.le_add_right _ _) room
    obtain ⟨b, r, wrote, stored, all, size, step⟩ :=
      (InStep.start memory).run (ε := ε) block patching.of_append fits
    have length : b.bytes.length = r.position := step.position_eq.symm
    refine ⟨b, r, wrote, stored, ?_, ?_, all, ?_⟩
    · rw [step.memory_eq, List.take_left' length]
    · rw [step.position_eq, size, ByteBuffer.size_empty, Nat.zero_add]
    · rw [step.memory_eq, List.drop_left' length, step.position_eq]

/-- A header whose length field is filled in after the record behind it is known. -/
theorem writers_agree_patched :
    let header : Item := ⟨⟨.big, .unsigned .w16⟩, 0⟩
    let length : Item := ⟨⟨.big, .unsigned .w16⟩, 3⟩
    let before : List Write := [.next (.typed header), .next (.raw [7, 8, 9]),
      .placed 0 (.typed length)]
    ∃ b r, (Action.perform Write.inBuffer before .empty : Reply ByteBuffer Empty Unit) =
        ⟨.value (), b, []⟩ ∧
      Action.perform Write.inRegion before (.ofMemory [1, 2, 3, 4, 5, 6]) = ⟨.value (), r, []⟩ ∧
      b.bytes = [0, 3, 7, 8, 9] ∧ r.memory = [0, 3, 7, 8, 9, 6] ∧ r.position = 5 := by
  intro header length before
  have patching : Patching 0 (before ++ [.next (.raw [5])]) :=
    ⟨trivial, trivial, show 0 + 2 ≤ 5 by decide, trivial, trivial⟩
  obtain ⟨b, r, wrote, stored, same, position, all, rest⟩ :=
    (writers_agree Empty).2 [1, 2, 3, 4, 5, 6] before [.next (.raw [5])] (by decide) patching
      (by decide)
  have made : b.bytes = [0, 3, 7, 8, 9] := all.trans (by decide)
  have place : r.position = 5 := position.trans (by decide)
  refine ⟨b, r, wrote, stored, made, ?_, place⟩
  rw [← List.take_append_drop r.position r.memory, ← same, rest, made, place]
  rfl

end BinaryStream
