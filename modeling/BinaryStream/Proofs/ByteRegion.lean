import BinaryStream.ByteRegion
import BinaryStream.Proofs.Run

/-!
Writes to a region of fixed size, in any order and of any kind. Every command names a range from the
position alone; it is carried out when the range lies inside of the region and changes nothing
otherwise. The position counts what the sequential writes have written, so it never leaves the
region.
-/
namespace BinaryStream.ByteRegion

namespace Command

/-- Whether the command writes at the position and moves it. -/
def sequential : Command → Bool
  | .write _ | .put _ _ => true
  | .writeAt _ _ | .putAt _ _ _ => false

def payload : Command → List UInt8
  | .write payload | .writeAt _ payload => payload
  | .put layout value | .putAt layout _ value => layout.encode value

/-- Where the payload goes in a region that stands at `position`. -/
def offset (position : Nat) : Command → Nat
  | .write _ | .put _ _ => position
  | .writeAt offset _ | .putAt _ offset _ => offset

/-- How far the command moves the position. -/
def advance (command : Command) : Nat :=
  if command.sequential then command.payload.length else 0

end Command

/-- What sequential writes have written in a run from `r`: one that fails writes nothing. -/
def written : List Command → ByteRegion → Nat
  | [], _ => 0
  | command :: commands, r =>
    match command.run r with
    | ⟨.value (), next, _⟩ => command.advance + written commands next
    | ⟨_, next, _⟩ => written commands next

/-- A region in memory, which is smaller than a word can tell, with its position inside. -/
structure Valid (r : ByteRegion) : Prop where
  capacity_lt : r.capacity < Size.limit
  position_le : r.position ≤ r.capacity

variable {r : ByteRegion}

theorem Valid.ofMemory {memory : List UInt8} (word : memory.length < Size.limit) :
    Valid (ofMemory memory) :=
  ⟨word, Nat.zero_le _⟩

namespace Valid

theorem remaining_add_position (h : Valid r) : r.remaining + r.position = r.capacity :=
  Nat.sub_add_cancel h.position_le

theorem writeAt_apply (h : Valid r) (offset : Nat) (payload : List UInt8) :
    writeAt offset payload r =
      if offset + payload.length ≤ r.capacity then
        ⟨.value (), { r with memory := Bytes.overwrite r.memory offset payload }, []⟩
      else Action.refuse (.outOfRange offset payload.length r.capacity) r := by
  rw [writeAt, Action.get_bind_apply, Action.checkRange_bind_apply h.capacity_lt]
  split
  · rename_i inside
    have stored : Bytes.store r.memory offset payload =
        .ok (Bytes.overwrite r.memory offset payload) := if_pos inside
    rw [stored]
    rfl
  · rfl

theorem write_apply (h : Valid r) (payload : List UInt8) :
    write payload r =
      if r.position + payload.length ≤ r.capacity then
        ⟨.value (), ⟨Bytes.overwrite r.memory r.position payload, r.position + payload.length⟩, []⟩
      else Action.refuse (.outOfRange r.position payload.length r.capacity) r := by
  rw [write, Action.get_bind_apply, Action.bind_of_ite _ (h.writeAt_apply r.position payload)]
  rfl

/-- All that a command can do: write its payload where it goes, or nothing. -/
theorem run_apply (h : Valid r) (command : Command) :
    command.run r =
      if command.offset r.position + command.payload.length ≤ r.capacity then
        ⟨.value (), ⟨Bytes.overwrite r.memory (command.offset r.position) command.payload,
          r.position + command.advance⟩, []⟩
      else
        Action.refuse
          (.outOfRange (command.offset r.position) command.payload.length r.capacity) r := by
  cases command with
  | write payload => exact h.write_apply payload
  | writeAt offset payload => exact h.writeAt_apply offset payload
  | put layout value => exact h.write_apply (layout.encode value)
  | putAt layout offset value => exact h.writeAt_apply offset (layout.encode value)

end Valid

/-- A command that moves the position writes at it. -/
theorem Command.position_add_advance_le {command : Command} {position capacity : Nat}
    (inside : command.offset position + command.payload.length ≤ capacity)
    (before : position ≤ capacity) : position + command.advance ≤ capacity := by
  cases command with
  | write payload => exact inside
  | writeAt offset payload => exact before
  | put layout value => exact inside
  | putAt layout offset value => exact before

theorem run_capacity (h : Valid r) (command : Command) :
    (command.run r).state.capacity = r.capacity := by
  rw [h.run_apply]
  split
  · exact Bytes.length_overwrite ‹_›
  · rfl

theorem run_valid (h : Valid r) (command : Command) : Valid (command.run r).state := by
  refine ⟨by rw [run_capacity h]; exact h.capacity_lt, ?_⟩
  rw [run_capacity h, h.run_apply]
  split
  · exact Command.position_add_advance_le ‹_› h.position_le
  · exact h.position_le

theorem execute_valid (h : Valid r) (commands : List Command) :
    Valid (Action.execute Command.run commands r) :=
  Action.execute_invariant Valid (fun command _ valid => run_valid valid command) commands h

theorem execute_capacity (h : Valid r) (commands : List Command) :
    (Action.execute Command.run commands r).capacity = r.capacity := by
  induction commands generalizing r with
  | nil => rfl
  | cons command commands ih => exact (ih (run_valid h command)).trans (run_capacity h command)

theorem execute_position (h : Valid r) (commands : List Command) :
    (Action.execute Command.run commands r).position = r.position + written commands r := by
  induction commands generalizing r with
  | nil => rfl
  | cons command commands ih =>
    rw [Action.execute, ih (run_valid h command), written, h.run_apply]
    split
    · exact Nat.add_assoc _ _ _
    · rfl

/-- Whatever commands a region has seen, the next one is carried out exactly when its range lies
inside, over the natural numbers: then the bytes of the range are the payload's, all others are as
before and only a sequential write moves the position. Otherwise it is refused, and neither the
region nor anything later in the run can tell. The capacity never changes, and the position is what
the sequential writes have written so far. -/
theorem writes_all_or_nothing {memory : List UInt8} (word : memory.length < Size.limit)
    (commands : List Command) (command : Command) :
    let run := fun commands => Action.execute Command.run commands (ofMemory memory)
    let r := run commands
    let offset := command.offset r.position
    let payload := command.payload
    let reply := command.run r
    (r.capacity = memory.length ∧ r.position ≤ memory.length ∧
      r.position = written commands (ofMemory memory) ∧
      r.remaining + r.position = memory.length) ∧
    (reply.outcome = .value () ↔ offset + payload.length ≤ memory.length) ∧
    (offset + payload.length ≤ memory.length →
      reply.state.memory.length = memory.length ∧
      (∀ i, reply.state.memory[i]? =
        if offset ≤ i ∧ i < offset + payload.length then payload[i - offset]? else r.memory[i]?) ∧
      reply.state.position = r.position + if command.sequential then payload.length else 0) ∧
    (memory.length < offset + payload.length →
      reply.outcome = .error (.outOfRange offset payload.length memory.length) ∧
      reply.state = r ∧ ∀ after, run (commands ++ command :: after) = run (commands ++ after)) := by
  intro run r offset payload reply
  have valid : Valid r := execute_valid (.ofMemory word) commands
  have capacity : r.capacity = memory.length := execute_capacity (.ofMemory word) commands
  have position : r.position = written commands (ofMemory memory) := by
    have := execute_position (.ofMemory word) commands
    rwa [ofMemory, Nat.zero_add] at this
  have ran := valid.run_apply command
  refine ⟨⟨capacity, capacity ▸ valid.position_le, position,
    valid.remaining_add_position.trans capacity⟩, ?_⟩
  by_cases inside : offset + payload.length ≤ memory.length
  · have within : offset + payload.length ≤ r.capacity := by rwa [capacity]
    rw [if_pos within] at ran
    refine ⟨⟨fun _ => inside, fun _ => congrArg Reply.outcome ran⟩, fun _ => ⟨?_, ?_, ?_⟩,
      fun outside => absurd inside (Nat.not_le.mpr outside)⟩
    · exact (run_capacity valid command).trans capacity
    · intro i
      simp only [reply, ran]
      exact Bytes.getElem?_overwrite within i
    · simp only [reply, ran]
      rfl
  · have without : ¬ offset + payload.length ≤ r.capacity := by rwa [capacity]
    rw [if_neg without, capacity] at ran
    have stayed : reply.state = r := congrArg Reply.state ran
    have refused : reply.outcome = .error (.outOfRange offset payload.length memory.length) :=
      congrArg Reply.outcome ran
    refine ⟨⟨fun done => ?_, fun within => absurd within inside⟩,
      fun within => absurd within inside, fun _ => ⟨refused, stayed, fun after => ?_⟩⟩
    · rw [refused] at done
      cases done
    · simp only [run, Action.execute_append, Action.execute]
      exact congrArg (Action.execute Command.run after) stayed

/-- After a write at the largest offset there is, which is refused, and one that is not: an empty
payload fits at the end and not behind it. -/
theorem writes_all_or_nothing_at_end :
    let commands : List Command := [.writeAt 0xFFFFFFFFFFFFFFFF [9, 9], .write [7, 8]]
    let r := Action.execute Command.run commands (ofMemory [1, 2, 3, 4])
    r = ⟨[7, 8, 3, 4], 2⟩ ∧ written commands (ofMemory [1, 2, 3, 4]) = 2 ∧
      ((Command.writeAt 4 []).run r).outcome = .value () ∧
      ((Command.writeAt 5 []).run r).outcome = .error (.outOfRange 5 0 4) ∧
      ((Command.write [5, 6, 7]).run r).outcome = .error (.outOfRange 2 3 4) := by
  intro commands r
  have word : [(1 : UInt8), 2, 3, 4].length < Size.limit := by decide
  obtain ⟨⟨-, -, position, -⟩, fits, -⟩ := writes_all_or_nothing word commands (.writeAt 4 [])
  obtain ⟨-, -, -, behind⟩ := writes_all_or_nothing word commands (.writeAt 5 [])
  obtain ⟨-, -, -, beyond⟩ := writes_all_or_nothing word commands (.write [5, 6, 7])
  exact ⟨by decide, position.symm, fits.mpr (by decide), (behind (by decide)).1,
    (beyond (by decide)).1⟩

end BinaryStream.ByteRegion
