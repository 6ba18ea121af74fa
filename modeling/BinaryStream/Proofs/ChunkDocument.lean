import BinaryStream.Document
import BinaryStream.Proofs.ChunkList

/-!
Lists of chunks that are read from documents. A document states the size beside the chunks, and the
list takes it as it stands there. Whether later writes and joins can be trusted depends on that size
alone: a list behaves as one that was written here exactly when the document states the sum of the
lengths, and no use of it fails for lack of room that there is exactly when it states no more. This
holds for every reader that fills the two fields; the reader of texts is one.
-/
namespace BinaryStream

theorem Json.natural?_eq_some_iff {json : Json} {limit n : Nat} :
    json.natural? limit = some n ↔ json = .number (some n) ∧ n < limit := by
  unfold natural?
  split
  · simp
    omega
  · simp_all

namespace ChunkList

variable {c : ChunkList}

theorem ofJson?_eq_some_iff {json : Json} :
    ofJson? json = some c ↔ ∃ chunks items,
      json.fields? ["chunks", "size"] = some [chunks, .number (some c.size)] ∧
        chunks.items? = some items ∧ items.mapM Json.bytes? = some c.chunks ∧
        c.size < Size.limit := by
  constructor
  · intro read
    obtain ⟨fields, found, read⟩ := Option.bind_eq_some_iff.mp read
    split at read
    · obtain ⟨items, listed, read⟩ := Option.bind_eq_some_iff.mp read
      obtain ⟨chunks, blocks, read⟩ := Option.bind_eq_some_iff.mp read
      obtain ⟨size, number, made⟩ := Option.bind_eq_some_iff.mp read
      obtain ⟨rfl, word⟩ := Json.natural?_eq_some_iff.mp number
      obtain rfl := Option.some.inj made
      exact ⟨_, items, found, listed, blocks, word⟩
    · cases read
  · rintro ⟨chunks, items, found, listed, blocks, word⟩
    have number := Json.natural?_eq_some_iff.mpr ⟨rfl, word⟩
    simp [ofJson?, found, listed, blocks, number]

/-- What documents state for the two fields of a list, each under the name of its field. -/
structure StatedFields (δ : Type) where
  chunks? : δ → Option (List (List UInt8))
  size? : δ → Option Nat

/-- The fields of the list hold what the document states for them, and its size is a word. The two
are not compared with each other. -/
structure StatedFields.Fill {δ : Type} (stated : StatedFields δ) (document : δ) (c : ChunkList) :
    Prop where
  chunks : stated.chunks? document = some c.chunks
  size : stated.size? document = some c.size
  size_word : c.size < Size.limit

/-- The fields that the text of a document states, with the size written in digits alone. -/
def textFields : StatedFields String where
  chunks? text := do
    match ← (← Json.ofText? text).fields? ["chunks", "size"] with
    | [chunks, _] => (← chunks.items?).mapM Json.bytes?
    | _ => none
  size? text := do
    match ← (← Json.ofText? text).fields? ["chunks", "size"] with
    | [_, .number size] => size
    | _ => none

theorem fill_of_ofDocument? {text : String} (read : ofDocument? text = some c) :
    textFields.Fill text c := by
  obtain ⟨json, parsed, made⟩ := Option.bind_eq_some_iff.mp read
  obtain ⟨chunks, items, found, listed, blocks, word⟩ := ofJson?_eq_some_iff.mp made
  exact ⟨by simp [textFields, parsed, found, listed, blocks],
    by simp [textFields, parsed, found], word⟩

/-- What a list that was written here can be relied on for. Whatever is written behind its chunks
and whatever separates them, if memory can hold the result then no write and no join fails, and the
list is the one that the same chunks make from the empty list. -/
def Reliable (c : ChunkList) : Prop :=
  ∀ (commands : List Command) (separator : List UInt8),
    (separator.intercalate (c.chunks ++ commands.map Command.payload)).length < Size.blockLimit →
    ∃ d, Action.perform Command.run commands c = ⟨.value (), d, []⟩ ∧
      d.join separator = .ok (separator.intercalate d.chunks) ∧
      Action.perform Command.run (d.chunks.map Command.write) empty = ⟨.value (), d, []⟩

/-- No write and no join fails where memory can hold the result. -/
def FaultFree (c : ChunkList) : Prop :=
  ∀ (commands : List Command) (separator : List UInt8),
    (separator.intercalate (c.chunks ++ commands.map Command.payload)).length < Size.blockLimit →
    ∃ d joined, Action.perform Command.run commands c = ⟨.value (), d, []⟩ ∧
      d.join separator = .ok joined

/-- A list whose size is at most that of its chunks has room wherever there is room. -/
theorem runs_of_size_le (le : c.size ≤ c.total) {commands : List Command} {separator : List UInt8}
    (room : (separator.intercalate (c.chunks ++ commands.map Command.payload)).length <
      Size.blockLimit) :
    let d := c.extend (commands.map Command.payload)
    Action.perform Command.run commands c = ⟨.value (), d, []⟩ ∧
      d.join separator = .ok (separator.intercalate d.chunks) := by
  intro d
  have small : Size.blockLimit < Size.limit := by decide
  have held : d.size ≤ d.total := by simpa [d] using le
  have written : d.size = c.size + (commands.map fun command => command.payload.length).sum := by
    simp [d, Function.comp_def]
  have long : d.total + separator.length * (d.length - 1) < Size.blockLimit :=
    d.length_joined separator ▸ room
  exact ⟨perform_of_room (by omega), join_eq_ok_iff.mpr ⟨by omega, rfl⟩⟩

/-- Chunks written one by one to the empty list. -/
theorem perform_writes {chunks : List (List UInt8)}
    (room : (chunks.map List.length).sum < Size.limit) :
    Action.perform Command.run (chunks.map Command.write) empty =
      ⟨.value (), empty.extend chunks, []⟩ := by
  have payloads : (chunks.map Command.write).map Command.payload = chunks := by
    rw [List.map_map]
    exact List.map_id chunks
  have enough : empty.size +
      ((chunks.map Command.write).map fun command => command.payload.length).sum < Size.limit := by
    simpa [empty, Function.comp_def, Command.payload] using room
  rw [perform_of_room enough, payloads]

theorem extend_empty_eq_iff : empty.extend c.chunks = c ↔ c.Exact := by
  constructor
  · intro same
    rw [← same]
    exact exact_empty.extend c.chunks
  · intro exact
    rw [Exact, total] at exact
    simp [ChunkList.extend, empty, ← exact]

theorem reliable_iff (held : c.total < Size.blockLimit) : c.Reliable ↔ c.Exact := by
  have small : Size.blockLimit < Size.limit := by decide
  constructor
  · intro reliable
    have room : (([] : List UInt8).intercalate (c.chunks ++ [].map Command.payload)).length <
        Size.blockLimit := by
      rw [List.map_nil, List.append_nil, c.length_joined]
      simpa using held
    obtain ⟨d, ran, -, fresh⟩ := reliable [] [] room
    obtain rfl : c = d := congrArg Reply.state ran
    rw [perform_writes (Nat.lt_trans held small)] at fresh
    exact extend_empty_eq_iff.mp (congrArg Reply.state fresh)
  · intro exact commands separator room
    obtain ⟨ran, joins⟩ := runs_of_size_le (Nat.le_of_eq exact) room
    have whole := extend_empty_eq_iff.mpr (exact.extend (commands.map Command.payload))
    have written := perform_writes (Nat.lt_trans (Nat.lt_of_le_of_lt
      ((c.extend (commands.map Command.payload)).total_le_length_joined separator) room) small)
    exact ⟨_, ran, joins, written.trans (by rw [whole])⟩

/-- A size above that of the chunks takes room that is there: a chunk that memory could just hold
is not written, or not joined. -/
theorem faultFree_iff (word : c.size < Size.limit) (held : c.total < Size.blockLimit) :
    c.FaultFree ↔ c.size ≤ c.total := by
  constructor
  · intro free
    by_contra above
    let size := Size.blockLimit - 1 - c.total
    let chunk : List UInt8 := List.replicate size 0
    have long : chunk.length = size := List.length_replicate
    have room : (([] : List UInt8).intercalate (c.chunks ++ [chunk])).length < Size.blockLimit := by
      have full := (c.extend [chunk]).length_joined []
      simp only [total_extend, List.map_cons, List.map_nil, List.sum_cons, List.sum_nil, long,
        List.length_nil, Nat.zero_mul] at full
      exact full.trans_lt (by omega)
    obtain ⟨d, joined, ran, joins⟩ := free [.write chunk] [] room
    have cost : ([Command.write chunk].map fun command => command.payload.length).sum = size := by
      simp [Command.payload, long]
    by_cases fits : c.size + size < Size.limit
    · have written := perform_of_room (c := c) (cost.symm ▸ fits)
      obtain rfl : _ = d := congrArg Reply.state (written.symm.trans ran)
      obtain ⟨reckoned, -⟩ := join_eq_ok_iff.mp joins
      have grown : (c.extend ([Command.write chunk].map Command.payload)).size = c.size + size := by
        simp [Command.payload, long]
      rw [grown, List.length_nil, Nat.zero_mul] at reckoned
      omega
    · have refused := perform_of_no_room word (cost.symm ▸ Nat.not_lt.mp fits)
      rw [ran] at refused
      cases refused
  · intro le commands separator room
    obtain ⟨ran, joins⟩ := runs_of_size_le le room
    exact ⟨_, _, ran, joins⟩

/-- Whatever reads a list by filling its two fields from a document, the size is the number that the
document states, whatever the chunks. Where it is the sum of their lengths the list can be relied on
like one that was written here, and nowhere else; where it is more, some write or join fails
although memory could hold the result. -/
theorem read_size_decides {δ : Type} {stated : StatedFields δ} {read? : δ → Option ChunkList}
    (fills : ∀ document c, read? document = some c → stated.Fill document c) {document : δ}
    (read : read? document = some c) (held : c.total < Size.blockLimit) :
    ∃ chunks size, stated.chunks? document = some chunks ∧ stated.size? document = some size ∧
      c = ⟨chunks, size⟩ ∧
      (size = (chunks.map List.length).sum ↔ c.Reliable) ∧
      (size ≤ (chunks.map List.length).sum ↔ c.FaultFree) := by
  have filled := fills document c read
  exact ⟨c.chunks, c.size, filled.chunks, filled.size, rfl, (reliable_iff held).symm,
    (faultFree_iff filled.size_word held).symm⟩

/-- A document that states the sum, its fields in either order. -/
theorem read_size_decides_sum :
    ∃ c, ofDocument? "\x7b\"size\":3,\"chunks\":[[97],[98,99]]\x7d" = some c ∧
      c.chunks = [[97], [98, 99]] ∧ c.Reliable := by
  have read : ofDocument? "\x7b\"size\":3,\"chunks\":[[97],[98,99]]\x7d" =
      some ⟨[[97], [98, 99]], 3⟩ := by decide +kernel
  obtain ⟨_, _, -, -, same, reliable, -⟩ :=
    read_size_decides (fun _ _ => fill_of_ofDocument?) read (by decide)
  obtain ⟨rfl, rfl⟩ := ChunkList.mk.inj same
  exact ⟨_, read, rfl, reliable.mp rfl⟩

/-- A document that states another size is read all the same: no byte more can be written, the one
chunk is not joined, and the list is not the one that the same chunk makes. -/
theorem read_stated_size_of_one_chunk :
    ∃ c, ofDocument? "\x7b\"chunks\":[[97]],\"size\":18446744073709551615\x7d" = some c ∧
      c.chunks = [[97]] ∧ c.size ≠ (c.chunks.map List.length).sum ∧
      (Command.write [98]).run c = ⟨.fault .overflow, c, []⟩ ∧ c.join [] = .error .capacity ∧
      Action.perform Command.run (c.chunks.map Command.write) empty ≠ ⟨.value (), c, []⟩ := by
  refine ⟨⟨[[97]], 18446744073709551615⟩, by decide +kernel, rfl, ?_, rfl, rfl, ?_⟩
  · decide
  · decide

end ChunkList

end BinaryStream
