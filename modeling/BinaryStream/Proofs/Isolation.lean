import Mathlib.Data.List.Forall2
import BinaryStream.BitBuffer
import BinaryStream.Proofs.BitCopy
import BinaryStream.Proofs.ByteCursor.Tape

/-!
Isolation: nothing is learned of what stands outside of a window. A session is cursors in use, those
that were opened as views of others among them, and the buffers that bits are copied to. Two
sessions over different blocks whose cursors look the same are answered the same, whatever is asked
of them.
-/
namespace BinaryStream

structure Session where
  cursors : List ByteCursor
  bitCursors : List BitCursor
  buffers : List BitBuffer

namespace Session

/-- A request to one of the cursors or buffers, which are counted in the order of their opening. -/
inductive Request where
  | bytes (i : Nat) (command : ByteCursor.Command)
  | bits (i : Nat) (request : BitCursor.Request)
  | buffer (j : Nat) (command : BitBuffer.Command)
  | copyTo (i j n : Nat)
  | copyFrom (j i n : Nat)

/-- What the one who asked learns at once. -/
inductive Observation where
  | absent
  | bytes (outcome : Outcome AccessError ByteCursor.Sight) (events : List Event)
  | bits (outcome : Outcome AccessError BitCursor.Answer) (events : List Event)
  | buffer (outcome : Outcome AccessError Unit) (events : List Event)
  | copied (outcome : Outcome (CopyError Empty) Unit) (events : List Event)

/-- A cursor that is an answer is in use from then on. -/
def adopt (s : Session) : Outcome AccessError ByteCursor.Answer → Session
  | .value (.cursor v) => { s with cursors := s.cursors ++ [v] }
  | .value (.bits v) => { s with bitCursors := s.bitCursors ++ [v] }
  | _ => s

def askBytes (i : Nat) (command : ByteCursor.Command) (s : Session) : Observation × Session :=
  match s.cursors[i]? with
  | none => (.absent, s)
  | some c =>
    let r := command.run c
    (.bytes (r.outcome.map ByteCursor.Answer.sight) r.events,
      { s with cursors := s.cursors.set i r.state }.adopt r.outcome)

def askBits (i : Nat) (request : BitCursor.Request) (s : Session) : Observation × Session :=
  match s.bitCursors[i]? with
  | none => (.absent, s)
  | some c =>
    let r := request.run c
    (.bits r.outcome r.events, { s with bitCursors := s.bitCursors.set i r.state })

def askBuffer (j : Nat) (command : BitBuffer.Command) (s : Session) : Observation × Session :=
  match s.buffers[j]? with
  | none => (.absent, s)
  | some b =>
    let r := command.run b
    (.buffer r.outcome r.events, { s with buffers := s.buffers.set j r.state })

def askCopy (i j : Nat) (copy : Action (BitSource × BitBuffer) (CopyError Empty) Unit)
    (s : Session) : Observation × Session :=
  match s.bitCursors[i]?, s.buffers[j]? with
  | some c, some b =>
    let r := copy (.cursor c, b)
    (.copied r.outcome r.events, { s with
      bitCursors := s.bitCursors.set i r.state.1.base, buffers := s.buffers.set j r.state.2 })
  | _, _ => (.absent, s)

def step : Request → Session → Observation × Session
  | .bytes i command => askBytes i command
  | .bits i request => askBits i request
  | .buffer j command => askBuffer j command
  | .copyTo i j n => askCopy i j (BinaryStream.copyTo n)
  | .copyFrom j i n =>
    askCopy i j fun p => (BinaryStream.copyFrom n p.swap).mapState Prod.swap

/-- All that is learned on the way, and what is left. -/
def run : List Request → Session → List Observation × Session
  | [], s => ([], s)
  | request :: requests, s =>
    let (observation, next) := step request s
    let (observations, last) := run requests next
    (observation :: observations, last)

/-- Cursors in use look the same one by one; blocks, and where in them the windows stand, may differ
in any way. -/
structure Alike (s t : Session) : Prop where
  cursors : List.Forall₂ ByteCursor.Alike s.cursors t.cursors
  bitCursors : List.Forall₂ BitCursor.Alike s.bitCursors t.bitCursors
  buffers_eq : s.buffers = t.buffers

variable {s t : Session}

section Pairs

variable {α β : Type} {related : α → β → Prop} {l : List α} {l' : List β}

theorem getElem?_of_forall₂ (pairs : List.Forall₂ related l l') (i : Nat) :
    (l[i]? = none ∧ l'[i]? = none) ∨
      ∃ a b, l[i]? = some a ∧ l'[i]? = some b ∧ related a b := by
  induction pairs generalizing i with
  | nil => exact .inl ⟨rfl, rfl⟩
  | cons head _ ih =>
    cases i with
    | zero => exact .inr ⟨_, _, rfl, rfl, head⟩
    | succ i => simpa only [List.getElem?_cons_succ] using ih i

theorem forall₂_set (pairs : List.Forall₂ related l l') (i : Nat) {a : α} {b : β}
    (same : related a b) : List.Forall₂ related (l.set i a) (l'.set i b) := by
  induction pairs generalizing i with
  | nil => exact .nil
  | cons head tail ih =>
    cases i with
    | zero => exact .cons same tail
    | succ i => exact .cons head (ih i)

theorem forall₂_concat (pairs : List.Forall₂ related l l') {a : α} {b : β} (same : related a b) :
    List.Forall₂ related (l ++ [a]) (l' ++ [b]) :=
  List.rel_append pairs (.cons same .nil)

end Pairs

namespace Alike

theorem adopt (same : Alike s t) {o o' : Outcome AccessError ByteCursor.Answer}
    (outcomes : o.Related ByteCursor.Answer.Alike o') : Alike (s.adopt o) (t.adopt o') := by
  cases outcomes with
  | value answers =>
    cases answers with
    | cursor v => exact ⟨forall₂_concat same.cursors v, same.bitCursors, same.buffers_eq⟩
    | bits v => exact ⟨same.cursors, forall₂_concat same.bitCursors v, same.buffers_eq⟩
    | plain closed =>
      rename_i answer
      cases answer with
      | cursor v => cases closed
      | bits v => cases closed
      | _ => exact same
  | error e => exact same
  | fault f => exact same

/-- The same is learned, and what is left looks the same. -/
structure Unwound {ω : Type} (o o' : ω × Session) : Prop where
  observed : o.1 = o'.1
  next : Alike o.2 o'.2

theorem askBytes (same : Alike s t) (i : Nat) (command : ByteCursor.Command) :
    Unwound (s.askBytes i command) (t.askBytes i command) := by
  rcases getElem?_of_forall₂ same.cursors i with ⟨none, none'⟩ | ⟨c, d, found, found', alike⟩
  · rw [Session.askBytes, Session.askBytes, none, none']
    exact ⟨rfl, same⟩
  · rw [Session.askBytes, Session.askBytes, found, found']
    obtain ⟨seen, -, logs⟩ := (Reply.mk.injEq ..).mp (alike.look_run_eq command)
    have ran := alike.run command
    have next : Alike { s with cursors := s.cursors.set i (command.run c).state }
        { t with cursors := t.cursors.set i (command.run d).state } :=
      ⟨forall₂_set same.cursors i ran.state, same.bitCursors, same.buffers_eq⟩
    exact ⟨congrArg₂ Observation.bytes seen logs, next.adopt ran.outcome⟩

theorem askBits (same : Alike s t) (i : Nat) (request : BitCursor.Request) :
    Unwound (s.askBits i request) (t.askBits i request) := by
  rcases getElem?_of_forall₂ same.bitCursors i with ⟨none, none'⟩ | ⟨c, d, found, found', alike⟩
  · rw [Session.askBits, Session.askBits, none, none']
    exact ⟨rfl, same⟩
  · rw [Session.askBits, Session.askBits, found, found', request.run_eq]
    have ran := alike.run request.command
    exact ⟨congrArg₂ Observation.bits ran.outcome.eq ran.events_eq, same.cursors,
      forall₂_set same.bitCursors i ran.state, same.buffers_eq⟩

theorem askBuffer (same : Alike s t) (j : Nat) (command : BitBuffer.Command) :
    Unwound (s.askBuffer j command) (t.askBuffer j command) := by
  rw [Session.askBuffer, Session.askBuffer, ← same.buffers_eq]
  split
  · exact ⟨rfl, same⟩
  · exact ⟨rfl, same.cursors, same.bitCursors, rfl⟩

theorem askCopy (same : Alike s t) (i j : Nat)
    {copy : Action (BitSource × BitBuffer) (CopyError Empty) Unit}
    (copied : ∀ {p q}, CopiesAlike p q → Reply.Related Eq CopiesAlike (copy p) (copy q)) :
    Unwound (s.askCopy i j copy) (t.askCopy i j copy) := by
  rcases getElem?_of_forall₂ same.bitCursors i with ⟨none, none'⟩ | ⟨c, d, found, found', alike⟩
  · rw [Session.askCopy, Session.askCopy, none, none']
    exact ⟨rfl, same⟩
  · rw [Session.askCopy, Session.askCopy, found, found', ← same.buffers_eq]
    cases s.buffers[j]? with
    | none => exact ⟨rfl, same⟩
    | some b =>
      have ran := copied (.intro alike b)
      obtain ⟨sources, sinks⟩ := ran.state.base
      exact ⟨congrArg₂ Observation.copied ran.outcome.eq ran.events_eq, same.cursors,
        forall₂_set same.bitCursors i sources, congrArg (s.buffers.set j) sinks⟩

theorem step (same : Alike s t) (request : Request) :
    Unwound (Session.step request s) (Session.step request t) := by
  cases request with
  | bytes i command => exact same.askBytes i command
  | bits i request => exact same.askBits i request
  | buffer j command => exact same.askBuffer j command
  | copyTo i j n => exact same.askCopy i j (copyTo_alike n)
  | copyFrom j i n =>
    rw [Session.step]
    refine same.askCopy i j fun copies => ?_
    simp only [copyFrom_eq, Prod.swap_swap]
    exact copyTo_alike n copies

theorem run (same : Alike s t) (requests : List Request) :
    Unwound (Session.run requests s) (Session.run requests t) := by
  induction requests generalizing s t with
  | nil => exact ⟨rfl, same⟩
  | cons request requests ih =>
    have first := same.step request
    have others := ih first.next
    exact ⟨congrArg₂ List.cons first.observed others.observed, others.next⟩

end Alike

/-- Let the cursors of two sessions show the same bytes, or bits, at the same places, over blocks
that may differ everywhere else: in the bits of a last byte that the window leaves out, too. Then
whatever is asked of them, of the views that come of it and of the buffers, in any order, is
answered, refused or ends in a fault in the same way each time; and at any moment the cursors show
the same, have the same sizes and positions, and the buffers hold the same. -/
theorem run_isolated (same : Alike s t) (requests : List Request) :
    let r := run requests s
    let r' := run requests t
    r.1 = r'.1 ∧ r.2.buffers = r'.2.buffers ∧
    List.Forall₂ (fun c d => c.visible = d.visible ∧ c.length = d.length ∧
      c.position = d.position ∧ c.remaining = d.remaining ∧ c.atEnd = d.atEnd)
      r.2.cursors r'.2.cursors ∧
    List.Forall₂ (fun c d => c.visible = d.visible ∧ c.length = d.length ∧
      c.position = d.position ∧ c.remaining = d.remaining ∧ c.atEnd = d.atEnd)
      r.2.bitCursors r'.2.bitCursors := by
  intro r r'
  obtain ⟨observed, last⟩ : Alike.Unwound r r' := same.run requests
  refine ⟨observed, last.buffers_eq, last.cursors.imp ?_, last.bitCursors.imp ?_⟩
  · intro c d alike
    rw [alike.left.visible_eq, alike.right.visible_eq, ByteCursor.remaining, ByteCursor.remaining,
      ByteCursor.atEnd, ByteCursor.atEnd, alike.window_eq, alike.length_eq, alike.position_eq]
    exact ⟨rfl, rfl, rfl, rfl, rfl⟩
  · intro c d alike
    rw [BitCursor.remaining, BitCursor.remaining, BitCursor.atEnd, BitCursor.atEnd,
      alike.visible_eq, alike.length_eq, alike.position_eq]
    exact ⟨rfl, rfl, rfl, rfl, rfl⟩

/-- A window in the middle of two blocks, and the first thirteen bits of two that end in different
ones. -/
theorem run_isolated_neighbours :
    let s : Session := ⟨[⟨[7, 1, 2, 0, 10, 7], 1, 4, 0⟩], [⟨[0xA5, 0x3F], 0, 13, 0⟩], [.empty]⟩
    let t : Session := ⟨[⟨[1, 2, 0, 10], 0, 4, 0⟩], [⟨[0xA5, 0x38, 0xFF], 0, 13, 0⟩], [.empty]⟩
    let requests : List Request := [.bytes 0 .getString, .bytes 0 (.bitView (.clampedTail 1)),
      .bits 0 (.direct (.read 3)), .copyTo 0 0 11, .copyTo 0 0 10, .copyFrom 0 1 20,
      .bytes 0 .getLine]
    Alike s t ∧ (run requests s).1 = (run requests t).1 ∧
      (run requests s).2.buffers = (run requests t).2.buffers := by
  intro s t requests
  have bytes : ByteCursor.Alike ⟨[7, 1, 2, 0, 10, 7], 1, 4, 0⟩ ⟨[1, 2, 0, 10], 0, 4, 0⟩ :=
    ⟨.of (by decide) (by decide) (by decide), .of (by decide) (by decide) (by decide), rfl⟩
  have bits : BitCursor.Alike ⟨[0xA5, 0x3F], 0, 13, 0⟩ ⟨[0xA5, 0x38, 0xFF], 0, 13, 0⟩ :=
    ⟨⟨by decide, by decide, by decide, by decide⟩,
      ⟨by decide, by decide, by decide, by decide⟩, rfl⟩
  have same : Alike s t := ⟨.cons bytes .nil, .cons bits .nil, rfl⟩
  obtain ⟨observed, buffers, -⟩ := run_isolated same requests
  exact ⟨same, observed, buffers⟩

end Session

end BinaryStream
