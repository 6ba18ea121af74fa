import BinaryStream.BitSource
import BinaryStream.Proofs.BitCursor.Window
import BinaryStream.Proofs.ByteCursor.Safety

/-!
A tape is a list of bits and a place in it; it knows nothing of bytes, windows or words. Every
command on a valid cursor is the same command on the tape of its visible bits, and a whole run on a
cursor, however it was made, is the run on its tape.
-/
namespace BinaryStream

namespace BitCursor

/-- One bit is a number that is zero or one. -/
theorem ofNat_numeral_take_one_ne_zero {bits : List Bool} {bit : Bool} {position : Nat}
    (found : bits[position]? = .some bit) :
    (UInt64.ofNat (numeral ((bits.drop position).take 1)) != 0) = bit := by
  obtain ⟨inside, rfl⟩ := List.getElem?_eq_some_iff.mp found
  rw [List.drop_eq_getElem_cons inside]
  cases bits[position] <;> rfl

end BitCursor

structure BitTape where
  bits : List Bool
  position : Nat

namespace BitTape

open BitCursor (Answer Command)

/-- The number in the `width` bits at `offset`, with a move; a width beyond a word comes first. -/
def answerWord (offset width position : Nat) : Action BitTape AccessError Answer := fun t =>
  if 64 < width then ⟨.fault (.readWidth width), t, []⟩
  else if offset + width ≤ t.bits.length then
    ⟨.value (.word (UInt64.ofNat (numeral ((t.bits.drop offset).take width)))),
      { t with position }, []⟩
  else Action.refuse (.outOfRange offset width t.bits.length) t

def perform (command : Command) : Action BitTape AccessError Answer := fun t =>
  match command with
  | .seek position =>
    if position ≤ t.bits.length then ⟨.value .done, { t with position }, []⟩
    else Action.refuse (.outOfRange position 0 t.bits.length) t
  | .skip bits =>
    if t.position + bits ≤ t.bits.length then
      ⟨.value .done, { t with position := t.position + bits }, []⟩
    else Action.refuse (.outOfRange t.position bits t.bits.length) t
  | .truncate length =>
    if length ≤ t.bits.length then
      ⟨.value .done, ⟨t.bits.take length, min t.position length⟩, []⟩
    else Action.refuse (.outOfRange 0 length t.bits.length) t
  | .readAt position width => answerWord position width t.position t
  | .peek width => answerWord t.position width t.position t
  | .read width => answerWord t.position width (t.position + width) t
  | .readBit =>
    match t.bits[t.position]? with
    | some bit => ⟨.value (.bit bit), { t with position := t.position + 1 }, []⟩
    | none => Action.refuse (.outOfRange t.position 1 t.bits.length) t
  | .tell => ⟨.value (.position t.position), t, []⟩

end BitTape

namespace BitCursor

variable {c : BitCursor}

def tape (c : BitCursor) : BitTape := ⟨c.visible, c.position⟩

/-- A command on a cursor is the same command on its tape. -/
theorem Command.run_perform (h : Valid c) (command : Command) :
    (command.run c).mapState tape = BitTape.perform command c.tape := by
  have length := h.length_visible
  cases command with
  | seek position =>
    rw [Command.run, Action.bind_of_ite _ (h.framed.seek_apply position)]
    simp only [BitTape.perform, tape, length]
    split <;> rfl
  | skip bits =>
    rw [Command.run, Action.bind_of_ite _ (h.framed.skip_apply bits)]
    simp only [BitTape.perform, tape, length]
    split <;> rfl
  | truncate kept =>
    rw [Command.run, Action.bind_of_ite _ (truncate_apply kept)]
    simp only [BitTape.perform, tape, length]
    split
    · rename_i inside
      simp only [Reply.mapState, visible, List.take_take, Nat.min_eq_left inside, tape]
      rfl
    · rfl
  | readAt position width =>
    rw [Command.run, Action.bind_pure_apply, h.framed.readAt_apply]
    simp only [BitTape.perform, BitTape.answerWord, tape, length]
    split
    · rfl
    · split <;> rfl
  | peek width =>
    rw [Command.run, Action.bind_pure_apply, h.framed.peek_apply]
    simp only [BitTape.perform, BitTape.answerWord, tape, length]
    split
    · rfl
    · split <;> rfl
  | read width =>
    rw [Command.run, Action.bind_pure_apply, h.framed.read_apply]
    simp only [BitTape.perform, BitTape.answerWord, tape, length]
    split
    · rfl
    · split <;> rfl
  | readBit =>
    rw [Command.run, Action.bind_pure_apply, BitCursor.readBit, Action.bind_pure_apply,
      h.framed.read_apply, if_neg (by decide)]
    -- The tape answers with the bit itself; the cursor reads a number one bit wide.
    simp only [BitTape.perform, tape]
    cases found : c.visible[c.position]? with
    | some bit =>
      have inside := (List.getElem?_eq_some_iff.mp found).1
      rw [if_pos (by omega)]
      simp only [Outcome.map, ofNat_numeral_take_one_ne_zero found]
      rfl
    | none =>
      have outside := List.getElem?_eq_none_iff.mp found
      rw [if_neg (by omega), length]
      rfl
  | tell => rfl

/-- A valid cursor over the same block from the same byte on, and the cursor itself unless the
command was answered. -/
structure Kept (c : BitCursor) {α : Type} (r : Reply BitCursor AccessError α) : Prop where
  valid : Valid r.state
  data_eq : r.state.data = c.data
  start_eq : r.state.start = c.start
  unchanged : (∀ a, r.outcome ≠ .value a) → r.state = c

namespace Kept

variable {α β : Type}

theorem stayed (h : Valid c) (o : Outcome AccessError α) (log : List Event) : Kept c ⟨o, c, log⟩ :=
  ⟨h, rfl, rfl, fun _ => rfl⟩

theorem moved (h : Valid c) (a : α) {position : Nat} (inside : position ≤ c.length) :
    Kept c ⟨.value a, { c with position }, []⟩ :=
  ⟨h.moved inside, rfl, rfl, fun other => absurd rfl (other a)⟩

theorem truncated (h : Valid c) (a : α) {length : Nat} (inside : length ≤ c.length) :
    Kept c ⟨.value a, { c with length, position := min c.position length }, []⟩ :=
  ⟨h.truncated inside, rfl, rfl, fun other => absurd rfl (other a)⟩

theorem map {x : Action BitCursor AccessError α} (f : α → β) (h : Kept c (x c)) :
    Kept c ((x >>= fun a => (Pure.pure (f a) : Action BitCursor AccessError β)) c) := by
  rw [Action.bind_pure_apply]
  refine ⟨h.valid, h.data_eq, h.start_eq, ?_⟩
  intro other
  apply h.unchanged
  intro a answered
  exact other (f a) (by rw [answered]; rfl)

theorem ite {p : Prop} [Decidable p] {r r' : Reply BitCursor AccessError α}
    (first : p → Kept c r) (second : ¬p → Kept c r') : Kept c (if p then r else r') := by
  split
  · exact first ‹_›
  · exact second ‹_›

end Kept

theorem Command.run_kept (h : Valid c) (command : Command) : Kept c (command.run c) := by
  have refused : ∀ {α : Type} (e : AccessError), Kept c (Action.refuse e c : Reply _ _ α) :=
    fun e => .stayed h (.error e) _
  have read : ∀ width, Kept c (BitCursor.read width c) := by
    intro width
    rw [h.framed.read_apply]
    exact .ite (fun _ => .stayed h _ _) fun _ => .ite (.moved h _) fun _ => refused _
  cases command with
  | seek position =>
    exact .map _ (h.framed.seek_apply position ▸ .ite (.moved h _) fun _ => refused _)
  | skip bits => exact .map _ (h.framed.skip_apply bits ▸ .ite (.moved h _) fun _ => refused _)
  | truncate length =>
    exact .map _ (truncate_apply length ▸ .ite (.truncated h _) fun _ => refused _)
  | readAt position width =>
    exact .map _ (h.framed.readAt_apply position width ▸
      .ite (fun _ => .stayed h _ _) fun _ => .ite (fun _ => .stayed h _ _) fun _ => refused _)
  | peek width =>
    exact .map _ (h.framed.peek_apply width ▸
      .ite (fun _ => .stayed h _ _) fun _ => .ite (fun _ => .stayed h _ _) fun _ => refused _)
  | read width => exact .map _ (read width)
  | readBit => exact .map _ (.map _ (read 1))
  | tell => exact .stayed h _ _

/-! Cursors that look the same. -/

/-- Valid cursors that show the same bits and stand at the same place in them. -/
structure Alike (c d : BitCursor) : Prop where
  left : Valid c
  right : Valid d
  tape_eq : c.tape = d.tape

variable {d : BitCursor}

namespace Alike

theorem visible_eq (same : Alike c d) : c.visible = d.visible := congrArg BitTape.bits same.tape_eq

theorem position_eq (same : Alike c d) : c.position = d.position :=
  congrArg BitTape.position same.tape_eq

theorem length_eq (same : Alike c d) : c.length = d.length := by
  rw [← same.left.length_visible, ← same.right.length_visible, same.visible_eq]

theorem run (same : Alike c d) (command : Command) :
    Reply.Related Eq Alike (command.run c) (command.run d) := by
  have replies : (command.run c).mapState tape = (command.run d).mapState tape := by
    rw [command.run_perform same.left, command.run_perform same.right, same.tape_eq]
  obtain ⟨outcomes, tapes, logs⟩ := (Reply.mk.injEq ..).mp replies
  refine ⟨?_, logs, (command.run_kept same.left).valid, (command.run_kept same.right).valid, tapes⟩
  rw [outcomes]
  exact .refl _

theorem read (same : Alike c d) (width : Nat) :
    Reply.Related Eq Alike (BitCursor.read width c) (BitCursor.read width d) := by
  have ran := same.run (.read width)
  rw [Command.run, Action.bind_pure_apply, Action.bind_pure_apply] at ran
  refine ⟨?_, ran.events_eq, ran.state⟩
  exact Outcome.related_of_map_eq ran.outcome.eq fun _ _ _ _ same => Answer.word.inj same

end Alike

/-- Cursors that come from a block shorter than `2 ^ 61` bytes: by opening it, or as a view of its
bits from any byte cursor over it. -/
inductive Obtained : BitCursor → Prop where
  | whole {data : List UInt8} {c : BitCursor} (small : data.length < 2 ^ 61)
      (made : ofBytes data = .ok c) : Obtained c
  | opened {data : List UInt8} {position : Nat} {c : BitCursor} (small : data.length < 2 ^ 61)
      (made : (openAt data position ()).outcome = .value c) : Obtained c
  | viewed {b : ByteCursor} {range : ByteCursor.Range} {c : BitCursor}
      (before : ByteCursor.Reachable b)
      (made : (ByteCursor.bitView range b).outcome = .value c) : Obtained c

theorem Valid.viewed {b : ByteCursor} {range : ByteCursor.Range} (h : ByteCursor.Valid b)
    (inside : range.request.1 + range.request.2 ≤ b.length) :
    Valid ⟨b.data, b.start + (range.bounds b).1, (range.bounds b).2 * 8, 0⟩ := by
  have := h.window_le
  have := ByteCursor.Range.bounds_le b inside
  refine ⟨h.data_lt, ?_, ?_, Nat.zero_le _⟩
  · change b.start + (range.bounds b).1 ≤ b.data.length
    omega
  · change (range.bounds b).2 * 8 ≤ 8 * (b.data.length - (b.start + (range.bounds b).1))
    omega

theorem Obtained.valid (origin : Obtained c) : Valid c := by
  cases origin with
  | whole small made =>
    rw [ofBytes_of_lt small] at made
    cases made
    exact .whole small
  | @opened data position _ small made =>
    have whole := Valid.whole small
    rw [openAt, ofBytes_of_lt small, Action.ofExcept_ok, Action.pure_bind_apply,
      Action.checkRange_bind_apply whole.framed.length_lt] at made
    split at made
    · rename_i inside
      cases made
      exact whole.moved inside
    · cases made
  | @viewed b range _ before made =>
    rw [before.valid.bitView_apply] at made
    split at made
    · cases made
      exact .viewed before.valid ‹_›
    · cases made

/-- A cursor is asked directly or as a source of bits. -/
inductive Request where
  | direct (command : Command)
  | source (command : BitSource.Command)

def Request.command : Request → Command
  | .direct command => command
  | .source (.readBits n) => .read n
  | .source (.peekBits n) => .peek n
  | .source (.skipBits n) => .skip n

def Answer.ofWord : Option UInt64 → Answer
  | some value => .word value
  | none => .done

def Request.run : Request → Action BitCursor AccessError Answer
  | .direct command => command.run
  | .source command => fun c =>
    let r := (command.run (.cursor c)).mapState BitSource.base
    ⟨r.outcome.map Answer.ofWord, r.state, r.events⟩

theorem Request.run_source {α : Type} {command : BitSource.Command}
    {x : Action BitCursor AccessError α} {f : α → Option UInt64}
    (same : command.run (.cursor c) = ⟨(x c).outcome.map f, .cursor (x c).state, (x c).events⟩) :
    Request.run (.source command) c =
      (x >>= fun a =>
        (Pure.pure (Answer.ofWord (f a)) : Action BitCursor AccessError Answer)) c := by
  simp only [Request.run, same, Reply.mapState, BitSource.base, Outcome.map_map,
    Action.bind_pure_apply]

theorem Request.run_eq (request : Request) : request.run = request.command.run := by
  funext c
  cases request with
  | direct command => rfl
  | source command =>
    cases command with
    | readBits n =>
      have asked : BitSource.Command.run (.readBits n) (.cursor c) =
          ⟨(BitCursor.read n c).outcome.map some, .cursor (BitCursor.read n c).state,
            (BitCursor.read n c).events⟩ :=
        Action.bind_pure_apply (BitSource.readBits n) some (.cursor c)
      exact run_source asked
    | peekBits n =>
      have asked : BitSource.Command.run (.peekBits n) (.cursor c) =
          ⟨(BitCursor.peek n c).outcome.map some, .cursor (BitCursor.peek n c).state,
            (BitCursor.peek n c).events⟩ :=
        Action.bind_pure_apply (BitSource.peekBits n) some (.cursor c)
      exact run_source asked
    | skipBits n =>
      have asked : BitSource.Command.run (.skipBits n) (.cursor c) =
          ⟨(BitCursor.skip n c).outcome.map fun _ => none, .cursor (BitCursor.skip n c).state,
            (BitCursor.skip n c).events⟩ :=
        Action.bind_pure_apply (BitSource.skipBits n) (fun _ => none) (.cursor c)
      exact run_source asked

theorem execute_kept (h : Valid c) (requests : List Request) :
    let s := Action.execute Request.run requests c
    Valid s ∧ s.data = c.data ∧ s.start = c.start := by
  apply Action.execute_invariant fun s => Valid s ∧ s.data = c.data ∧ s.start = c.start
  · rintro request s ⟨valid, data_eq, start_eq⟩
    have kept := request.command.run_kept valid
    rw [request.run_eq]
    exact ⟨kept.valid, kept.data_eq.trans data_eq, kept.start_eq.trans start_eq⟩
  · exact ⟨h, rfl, rfl⟩

/-- A run on a cursor is the run on its tape. -/
theorem execute_tape (h : Valid c) (requests : List Request) :
    (Action.execute Request.run requests c).tape =
      Action.execute (fun request => BitTape.perform request.command) requests c.tape := by
  refine (Action.execute_related (fun s t => Valid s ∧ s.tape = t) ?_ requests
    ⟨h, rfl⟩).2
  -- Validity goes along: on no other cursor is a command that of its tape.
  rintro request s _ ⟨valid, rfl⟩
  rw [request.run_eq, ← request.command.run_perform valid]
  exact ⟨(request.command.run_kept valid).valid, rfl⟩

/-- After any run from a cursor over a block, its position and its visible bits are those of the run
on its tape, and the next request is answered as the tape answers it, word for word. The window
stays inside of the block, and a request that is not answered changes nothing. -/
theorem run_refines_tape (origin : Obtained c) (requests : List Request) (request : Request) :
    let s := Action.execute Request.run requests c
    let t := Action.execute (fun request => BitTape.perform request.command) requests c.tape
    let r := request.run s
    (s.visible = t.bits ∧ s.position = t.position) ∧
    r.mapState tape = BitTape.perform request.command t ∧
    (s.position ≤ s.length ∧ s.length = s.visible.length ∧
      s.length ≤ 8 * (s.data.length - s.start)) ∧
    (s.data = c.data ∧ s.start = c.start) ∧
    ((∀ a, r.outcome ≠ .value a) → r.state = s) ∧
    ∀ offset width, width ≤ 64 →
      (UInt64.ofNat (numeral ((s.visible.drop offset).take width))).toNat =
        numeral ((s.visible.drop offset).take width) := by
  intro s t r
  have valid_c := origin.valid
  obtain ⟨valid, data_eq, start_eq⟩ : Valid s ∧ s.data = c.data ∧ s.start = c.start :=
    execute_kept valid_c requests
  have tapes : s.tape = t := execute_tape valid_c requests
  have ran : r = request.command.run s := congrFun request.run_eq s
  refine ⟨?_, ?_, ⟨valid.position_le, valid.length_visible.symm, valid.length_le⟩,
    ⟨data_eq, start_eq⟩, ?_, ?_⟩
  · rw [← tapes]
    exact ⟨rfl, rfl⟩
  · rw [ran, ← tapes]
    exact request.command.run_perform valid
  · rw [ran]
    exact (request.command.run_kept valid).unchanged
  · intro offset width narrow
    apply toNat_ofNat_numeral
    rw [List.length_take]
    omega

/-- A field over a byte boundary of a truncated view, read through the source. -/
theorem run_refines_tape_truncated_view :
    let c : BitCursor := ⟨[0xA5, 0x3C, 0xFF], 1, 16, 0⟩
    let requests : List Request := [.direct (.truncate 13), .direct (.skip 3)]
    let request : Request := .source (.readBits 7)
    Obtained c ∧ (request.run (Action.execute Request.run requests c)).mapState tape =
      ⟨.value (.word 0x73), ⟨c.visible.take 13, 10⟩, []⟩ := by
  have block : ByteCursor.Reachable (ByteCursor.ofBytes [0xA5, 0x3C, 0xFF]) := .whole (by decide)
  have made : (ByteCursor.bitView (.exactTail 1) (ByteCursor.ofBytes [0xA5, 0x3C, 0xFF])).outcome =
      .value ⟨[0xA5, 0x3C, 0xFF], 1, 16, 0⟩ := rfl
  have obtained : Obtained ⟨[0xA5, 0x3C, 0xFF], 1, 16, 0⟩ := .viewed block made
  obtain ⟨-, answered, -⟩ := run_refines_tape obtained
    [.direct (.truncate 13), .direct (.skip 3)] (.source (.readBits 7))
  exact ⟨obtained, answered.trans rfl⟩

end BitCursor

end BinaryStream
