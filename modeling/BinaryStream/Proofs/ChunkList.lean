import BinaryStream.ChunkList
import BinaryStream.Proofs.ByteBuffer

/-!
Lists of chunks defer the joining. Each write leaves one more chunk behind those that are there, and
what is joined in the end is the chunks with the separator between consecutive ones. The size that
is kept beside the chunks stays the sum of their lengths, so that the room for all of them is
reckoned right and the join never fails where memory could hold its result.
-/
namespace BinaryStream.ChunkList

variable {ε : Type} {c : ChunkList} {commands : List Command}

/-- The bytes in all chunks. -/
def total (c : ChunkList) : Nat := (c.chunks.map List.length).sum

/-- The list with more chunks behind its own. -/
def extend (c : ChunkList) (chunks : List (List UInt8)) : ChunkList :=
  ⟨c.chunks ++ chunks, c.size + (chunks.map List.length).sum⟩

/-- The size that is kept is that of the chunks. -/
def Exact (c : ChunkList) : Prop := c.size = c.total

/-- What the command writes, in one piece. -/
def Command.payload : Command → List UInt8
  | .write chunk => chunk
  | .put layout value => layout.encode value
  | .writeText text => Bytes.ofText text
  | .writeParts parts => parts.flatMap Bytes.ofText

/-! Writing. -/

theorem extend_extend (c : ChunkList) (chunks more : List (List UInt8)) :
    (c.extend chunks).extend more = c.extend (chunks ++ more) := by
  simp [extend, Nat.add_assoc]

@[simp] theorem size_extend (c : ChunkList) (chunks : List (List UInt8)) :
    (c.extend chunks).size = c.size + (chunks.map List.length).sum := rfl

@[simp] theorem total_extend (c : ChunkList) (chunks : List (List UInt8)) :
    (c.extend chunks).total = c.total + (chunks.map List.length).sum := by
  simp [total, extend]

theorem exact_empty : empty.Exact := rfl

theorem Exact.extend (h : c.Exact) (chunks : List (List UInt8)) : (c.extend chunks).Exact := by
  rw [Exact, size_extend, total_extend, h]

theorem write_apply (chunk : List UInt8) (c : ChunkList) :
    (write chunk : Action ChunkList ε Unit) c =
      if c.size + chunk.length < Size.limit then ⟨.value (), c.extend [chunk], []⟩
      else ⟨.fault .overflow, c, []⟩ := by
  rw [write, Action.get_bind_apply, Size.add?, extend]
  split <;> rfl

theorem Command.run_apply (command : Command) (c : ChunkList) :
    command.run c =
      if c.size + command.payload.length < Size.limit then
        ⟨.value (), c.extend [command.payload], []⟩
      else ⟨.fault .overflow, c, []⟩ := by
  cases command <;> exact write_apply _ c

/-- Chunks added one at a time are added together. -/
theorem foldl_extend {α : Type} (chunk : α → List UInt8) (items : List α) (c : ChunkList) :
    items.foldl (fun c item => c.extend [chunk item]) c = c.extend (items.map chunk) := by
  induction items generalizing c with
  | nil => simp [extend]
  | cons item items ih => rw [List.foldl_cons, ih, extend_extend]; rfl

theorem perform_of_room
    (room : c.size + (commands.map fun command => command.payload.length).sum < Size.limit) :
    Action.perform Command.run commands c =
      ⟨.value (), c.extend (commands.map Command.payload), []⟩ := by
  rw [Action.perform_of_room Command.run_apply (fun command c => ?_) room, foldl_extend]
  simp

theorem perform_of_no_room (word : c.size < Size.limit)
    (full : Size.limit ≤ c.size + (commands.map fun command => command.payload.length).sum) :
    (Action.perform Command.run commands c).outcome = .fault .overflow :=
  Action.perform_of_no_room Command.run_apply (fun command c => by simp) word full

/-! Joining. -/

theorem length_intercalate (separator : List UInt8) (chunks : List (List UInt8)) :
    (separator.intercalate chunks).length =
      (chunks.map List.length).sum + separator.length * (chunks.length - 1) := by
  match chunks with
  | [] => rfl
  | [chunk] => simp
  | chunk :: next :: rest =>
    have ih := length_intercalate separator (next :: rest)
    rw [List.intercalate_cons_cons]
    simp only [List.length_append, ih, List.map_cons, List.sum_cons, List.length_cons,
      Nat.add_sub_cancel, Nat.mul_succ]
    omega

/-- The join is decided by the room that is reckoned: up to what memory can hold it is done, and
where the room is not even a word that is the fault. -/
theorem join_apply (c : ChunkList) (separator : List UInt8) :
    c.join separator =
      if c.size + separator.length * (c.length - 1) < Size.blockLimit then
        .ok (separator.intercalate c.chunks)
      else if c.size + separator.length * (c.length - 1) < Size.limit then .error .capacity
      else .error .overflow := by
  have small : Size.blockLimit < Size.limit := by decide
  by_cases separators : separator.length * (c.length - 1) < Size.limit
  · have counted : c.separatorSize separator = some (separator.length * (c.length - 1)) :=
      if_pos separators
    by_cases word : c.size + separator.length * (c.length - 1) < Size.limit
    · have total : Size.add? c.size _ = some _ := if_pos word
      simp only [join, counted, total, joinFrom_zero, if_pos word]
    · have total : Size.add? c.size _ = none := if_neg word
      simp only [join, counted, total, if_neg word]
      rw [if_neg (by omega)]
  · have counted : c.separatorSize separator = none := if_neg separators
    rw [join, counted, if_neg (by omega), if_neg (by omega)]

theorem join_eq_ok_iff {separator joined : List UInt8} :
    c.join separator = .ok joined ↔
      c.size + separator.length * (c.length - 1) < Size.blockLimit ∧
        separator.intercalate c.chunks = joined := by
  rw [join_apply]
  split
  · simp [*]
  · split <;> simp [*]

theorem length_joined (c : ChunkList) (separator : List UInt8) :
    (separator.intercalate c.chunks).length = c.total + separator.length * (c.length - 1) :=
  length_intercalate separator c.chunks

theorem total_le_length_joined (c : ChunkList) (separator : List UInt8) :
    c.total ≤ (separator.intercalate c.chunks).length := by
  rw [c.length_joined]
  exact Nat.le_add_right _ _

/-- With an exact size the room that is reckoned is what the result takes. -/
theorem Exact.length_joined (h : c.Exact) (separator : List UInt8) :
    (separator.intercalate c.chunks).length = c.size + separator.length * (c.length - 1) := by
  rw [c.length_joined, h]

theorem Exact.join_of_room (h : c.Exact) {separator : List UInt8}
    (room : (separator.intercalate c.chunks).length < Size.blockLimit) :
    c.join separator = .ok (separator.intercalate c.chunks) :=
  join_eq_ok_iff.mpr ⟨h.length_joined separator ▸ room, rfl⟩

/-- In a run that a word can count, from the empty list, each command leaves exactly one more chunk,
which is its payload, empty or in many parts as it may be, behind those that were there. So there
are as many chunks as commands and the size is the sum of theirs. Any separator with which memory
can hold the result joins them, and the result is as long as the size and the separators between
them. The parts of a formatted text stand in the chunk as they stand in a buffer that they are
written to.
-/
theorem run_defers_joining (commands : List Command)
    (room : (commands.map fun command => command.payload.length).sum < Size.limit) :
    (∀ before command after, commands = before ++ command :: after →
      ∃ c, Action.perform Command.run before empty = ⟨.value (), c, []⟩ ∧
        command.run c =
          ⟨.value (), ⟨c.chunks ++ [command.payload], c.size + command.payload.length⟩, []⟩) ∧
    (∃ c, Action.perform Command.run commands empty = ⟨.value (), c, []⟩ ∧
      c.chunks = commands.map Command.payload ∧ c.length = commands.length ∧
      (c.isEmpty = true ↔ commands = []) ∧ c.size = (c.chunks.map List.length).sum ∧
      ∀ separator, let joined := separator.intercalate c.chunks
        joined.length = c.size + separator.length * (c.length - 1) ∧
        (joined.length < Size.blockLimit → c.join separator = .ok joined)) ∧
    ∀ (parts : List String) (b : ByteBuffer), let text := (Command.writeParts parts).payload
      b.size + text.length < Size.blockLimit →
        (ByteBuffer.writeParts parts : Action ByteBuffer ε Unit) b =
          ⟨.value (), ⟨b.bytes ++ text⟩, []⟩ := by
  refine ⟨?_, ?_, fun parts b fits => ByteBuffer.writeParts_apply fits⟩
  · rintro before command after rfl
    rw [List.map_append, List.map_cons, List.sum_append, List.sum_cons, ← Nat.add_assoc] at room
    have enough := Nat.lt_of_le_of_lt (Nat.le_add_right _ _) room
    have fits := Nat.lt_of_le_of_lt (Nat.le_add_right _ _) enough
    refine ⟨_, perform_of_room (c := empty) (by rwa [empty, Nat.zero_add]), ?_⟩
    rw [command.run_apply, if_pos]
    · rfl
    · simpa [extend, empty, Function.comp_def] using enough
  · have sized := exact_empty.extend (commands.map Command.payload)
    refine ⟨_, perform_of_room (by rwa [empty, Nat.zero_add]), rfl, ?_, ?_, sized, ?_⟩
    · simp [length, extend, empty]
    · simp [isEmpty, extend, empty]
    · intro separator joined
      exact ⟨sized.length_joined separator, sized.join_of_room⟩

/-- An empty chunk, a number, a text in three parts and one in none. -/
theorem run_defers_joining_mixed :
    let commands : List Command := [.write [], .put ⟨.big, .unsigned .w16⟩ 0x4142,
      .writeParts ["1", "-", "2"], .writeParts []]
    ∃ c, Action.perform Command.run commands empty = ⟨.value (), c, []⟩ ∧ c.length = 4 ∧
      c.size = 5 ∧
      c.join [0x7C] = .ok [0x7C, 0x41, 0x42, 0x7C, 0x31, 0x2D, 0x32, 0x7C] := by
  intro commands
  obtain ⟨-, ⟨c, ran, chunks, count, -, size, joins⟩, -⟩ :=
    run_defers_joining (ε := Empty) commands (by decide)
  obtain ⟨long, joined⟩ := joins [0x7C]
  rw [size] at long
  rw [chunks] at size long joined
  have all : commands.map Command.payload = [[], [0x41, 0x42], [0x31, 0x2D, 0x32], []] := by decide
  rw [all] at size long joined
  exact ⟨c, ran, count, size, joined (by decide)⟩

end BinaryStream.ChunkList
