import BinaryStream.Proofs.ByteCursor.Safety
import BinaryStream.Proofs.Writers

/-!
Zero-terminated strings. A string reaches up to the first zero byte, which has to stand inside of
the window; where none does, the data is malformed, and outside of the window the request is.
Reading string after string takes one zero byte each time, so it comes to an end, and what was read
are the strings that were written, each with its terminator.
-/
namespace BinaryStream.ByteCursor

/-- The longest part of a text that it begins with and that holds no zero byte. -/
structure LongestFree (text s : List UInt8) : Prop where
  begins : s <+: text
  free : 0 ∉ s
  longest : ∀ t, t <+: text → 0 ∉ t → t.length ≤ s.length

/-- Strings, each of them followed by a zero byte in the text, and what stands behind the last. -/
structure StringTable where
  strings : List (List UInt8)
  trailing : List UInt8
  strings_free : ∀ s ∈ strings, 0 ∉ s
  trailing_free : 0 ∉ trailing

namespace StringTable

def terminated (strings : List (List UInt8)) : List UInt8 := strings.flatMap (· ++ [0])

def bytes (t : StringTable) : List UInt8 := terminated t.strings ++ t.trailing

/-- Where the bytes start that nothing terminates. -/
def stop (t : StringTable) : Nat := (terminated t.strings).length

/-- How the table is written: a string, its terminator, the next string. -/
def payloads (t : StringTable) : List Payload :=
  t.strings.flatMap (fun s => [.raw s, .raw [0]]) ++ [.raw t.trailing]

theorem terminated_cons (s : List UInt8) (strings : List (List UInt8)) (trailing : List UInt8) :
    terminated (s :: strings) ++ trailing = s ++ 0 :: (terminated strings ++ trailing) := by
  simp [terminated]

theorem length_terminated_cons (s : List UInt8) (strings : List (List UInt8)) :
    (terminated (s :: strings)).length = s.length + 1 + (terminated strings).length := by
  rw [terminated, List.flatMap_cons, List.length_append, List.length_append]
  rfl

theorem flatMap_payloads (t : StringTable) : t.payloads.flatMap Payload.bytes = t.bytes := by
  simp [payloads, bytes, terminated, Payload.bytes, List.flatMap_assoc]

theorem count_bytes (t : StringTable) : t.bytes.count 0 = t.strings.length := by
  obtain ⟨strings, trailing, free, rest⟩ := t
  change (terminated strings ++ trailing).count 0 = strings.length
  induction strings with
  | nil => exact List.count_eq_zero.mpr rest
  | cons s strings ih =>
    obtain ⟨first, others⟩ := List.forall_mem_cons.mp free
    rw [terminated_cons, List.count_append, List.count_eq_zero.mpr first, List.count_cons_self,
      ih others, List.length_cons, Nat.zero_add]

/-- Every text is the text of a table. -/
theorem exists_bytes_eq (text : List UInt8) : ∃ t : StringTable, t.bytes = text := by
  induction size : text.length using Nat.strongRecOn generalizing text with
  | _ n ih =>
    by_cases ends : 0 ∈ text
    · obtain ⟨s, rest, rfl, free⟩ := List.eq_append_cons_of_mem ends
      rw [List.length_append, List.length_cons] at size
      obtain ⟨t, rfl⟩ := ih rest.length (by omega) rest rfl
      refine ⟨⟨s :: t.strings, t.trailing, ?_, t.trailing_free⟩, terminated_cons _ _ _⟩
      exact List.forall_mem_cons.mpr ⟨free, t.strings_free⟩
    · exact ⟨⟨[], text, nofun, ends⟩, rfl⟩

end StringTable

/-! The first string of a text. -/

section FirstString

variable {s text : List UInt8}

theorem takeWhile_of_free (free : 0 ∉ s) (rest : List UInt8) :
    (s ++ 0 :: rest).takeWhile (· != 0) = s := by
  rw [Framed.takeWhile_ne_append free, List.takeWhile_cons_of_neg (by simp), List.append_nil]

theorem longestFree_of_terminated (free : 0 ∉ s) (rest : List UInt8) :
    LongestFree (s ++ 0 :: rest) s := by
  refine ⟨List.prefix_append _ _, free, ?_⟩
  intro t begins plain
  by_contra longer
  -- A longer part would hold the zero byte behind the string.
  have inside : s.length < t.length := Nat.lt_of_not_le longer
  have zero : t[s.length]? = some 0 := by
    rw [List.prefix_iff_eq_take.mp begins, List.getElem?_take_of_lt inside,
      List.getElem?_append_right (Nat.le_refl _), Nat.sub_self]
    rfl
  exact plain (List.mem_of_getElem? zero)

end FirstString

/-! Reading one. -/

/-- What a read at `offset` says of the text there. -/
structure FindsString (c : ByteCursor) (offset : Nat)
    (r : Reply ByteCursor AccessError (List UInt8)) : Prop where
  answered : (∃ s, r.outcome = .value s) ↔ offset ≤ c.length ∧ 0 ∈ c.window.drop offset
  string : ∀ s, r.outcome = .value s →
    LongestFree (c.window.drop offset) s ∧ c.window[offset + s.length]? = some 0
  unterminated : r.outcome = .error (.malformed offset .unterminatedString) ↔
    offset ≤ c.length ∧ 0 ∉ c.window.drop offset
  outside : r.outcome = .error (.outOfRange offset 0 c.length) ↔ c.length < offset

variable {c : ByteCursor}

theorem FindsString.congr {offset : Nat} {r r' : Reply ByteCursor AccessError (List UInt8)}
    (same : r'.outcome = r.outcome) (h : FindsString c offset r) : FindsString c offset r' := by
  obtain ⟨answered, string, unterminated, outside⟩ := h
  rw [← same] at answered unterminated outside
  exact ⟨answered, fun s found => string s (same ▸ found), unterminated, outside⟩

namespace Framed

theorem getStringAt_of_terminated (h : Framed c) {offset : Nat} (inside : offset ≤ c.length)
    {s rest : List UInt8} (free : 0 ∉ s) (text : c.window.drop offset = s ++ 0 :: rest) :
    getStringAt offset c = ⟨.value s, c, []⟩ := by
  rw [h.getStringAt_apply, if_pos inside, text, if_pos (by simp), takeWhile_of_free free]

theorem getStringAt_finds (h : Framed c) (offset : Nat) :
    FindsString c offset (getStringAt offset c) ∧ (getStringAt offset c).state = c := by
  by_cases inside : offset ≤ c.length
  · by_cases ends : 0 ∈ c.window.drop offset
    · obtain ⟨s, rest, text, free⟩ := List.eq_append_cons_of_mem ends
      have zero : c.window[offset + s.length]? = some 0 := by
        rw [← List.getElem?_drop, text, List.getElem?_append_right (Nat.le_refl _), Nat.sub_self]
        rfl
      rw [h.getStringAt_of_terminated inside free text]
      refine ⟨⟨⟨fun _ => ⟨inside, ends⟩, fun _ => ⟨s, rfl⟩⟩, ?_, ⟨nofun, ?_⟩, ⟨nofun, ?_⟩⟩, rfl⟩
      · rintro _ ⟨⟩
        rw [text]
        exact ⟨longestFree_of_terminated free rest, zero⟩
      · rintro ⟨-, endless⟩
        exact absurd ends endless
      · intro outside
        exact absurd inside (Nat.not_le.mpr outside)
    · rw [h.getStringAt_apply, if_pos inside, if_neg ends]
      refine ⟨⟨⟨nofun, fun found => absurd found.2 ends⟩, nofun, ⟨fun _ => ⟨inside, ends⟩,
        fun _ => rfl⟩, ⟨nofun, fun outside => absurd inside (Nat.not_le.mpr outside)⟩⟩, rfl⟩
  · rw [h.getStringAt_apply, if_neg inside]
    refine ⟨⟨⟨nofun, fun found => absurd found.1 inside⟩, nofun, ⟨nofun, fun found =>
      absurd found.1 inside⟩, ⟨fun _ => Nat.lt_of_not_le inside, fun _ => rfl⟩⟩, rfl⟩

theorem getString_of_terminated (h : Framed c) {s rest : List UInt8} (free : 0 ∉ s)
    (text : c.window.drop c.position = s ++ 0 :: rest) :
    getString c = ⟨.value s, { c with position := c.position + (s.length + 1) }, []⟩ := by
  rw [h.getString_apply, text, if_pos (by simp), takeWhile_of_free free]

theorem getString_of_unterminated (h : Framed c) (endless : 0 ∉ c.window.drop c.position) :
    getString c = Action.refuse (.malformed c.position .unterminatedString) c := by
  rw [h.getString_apply, if_neg endless]

theorem getString_outcome (h : Framed c) :
    (getString c).outcome = (getStringAt c.position c).outcome := by
  rw [h.getString_apply, h.getStringAt_apply, if_pos h.position_le]
  split <;> rfl

/-- A string that is read is passed with its terminator, and a refusal moves nothing. -/
theorem getString_state (h : Framed c) :
    (∀ s, (getString c).outcome = .value s →
      (getString c).state = { c with position := c.position + (s.length + 1) }) ∧
    ((∀ s, (getString c).outcome ≠ .value s) → (getString c).state = c) := by
  rw [h.getString_apply]
  split
  · refine ⟨?_, fun none => absurd rfl (none _)⟩
    rintro _ ⟨⟩
    rfl
  · exact ⟨nofun, fun _ => rfl⟩

/-! Reading one after the other. -/

theorem repeats_getString (h : Framed c) (t : StringTable)
    (text : c.window.drop c.position = t.bytes) :
    Action.Repeats getString (fun _ => True) c t.strings
      (Action.refuse (.malformed (c.position + t.stop) .unterminatedString)
        { c with position := c.position + t.stop }) := by
  obtain ⟨strings, trailing, free, rest⟩ := t
  simp only [StringTable.bytes, StringTable.stop] at text ⊢
  induction strings generalizing c with
  | nil =>
    have endless : 0 ∉ c.window.drop c.position := text ▸ rest
    have last := h.getString_of_unterminated endless
    have run : Action.Repeats getString (fun _ => True) c [] (getString c) :=
      .ended fun s found => by rw [last] at found; cases found
    rwa [last] at run
  | cons s strings ih =>
    obtain ⟨first, others⟩ := List.forall_mem_cons.mp free
    rw [StringTable.terminated_cons] at text
    have inside : c.position + (s.length + 1) ≤ c.length := by
      have := h.add_length_le h.position_le (text.trans (List.append_cons s 0 _))
      rwa [List.length_append] at this
    have behind : c.window.drop (c.position + (s.length + 1)) =
        StringTable.terminated strings ++ trailing := by
      rw [← List.drop_drop, text, List.drop_length_add_append]
      rfl
    have read := h.getString_of_terminated first text
    have more := ih (h.moved inside) others behind
    rw [StringTable.length_terminated_cons, ← Nat.add_assoc]
    refine .again (congrArg Reply.outcome read) trivial ?_
    rw [read]
    exact more

end Framed

/-- A string is read at any offset where a zero byte stands in the window at or behind it: it is the
longest part of the text there without one. Where none stands the data is malformed, and behind the
end the request is out of range. The string at the position is read alike, and passed with its
terminator; a refusal moves nothing. Read again and again, as many strings come as there are zero
bytes ahead: of a text that is a table these are its strings, up to an error where the bytes start
that nothing terminates. So it is with what a buffer holds when a table was written to it. -/
theorem getString_splits (ε : Type) (held : InMemory c) :
    (∀ offset, FindsString c offset (getStringAt offset c) ∧ (getStringAt offset c).state = c) ∧
    FindsString c c.position (getString c) ∧
    (∀ s, (getString c).outcome = .value s →
      (getString c).state = { c with position := c.position + (s.length + 1) }) ∧
    ((∀ s, (getString c).outcome ≠ .value s) → (getString c).state = c) ∧
    (∃ answers last, Action.Repeats getString (fun _ => True) c answers last) ∧
    (∀ answers last, Action.Repeats getString (fun _ => True) c answers last →
      answers.length = (c.window.drop c.position).count 0 ∧
      ∀ t : StringTable, c.window.drop c.position = t.bytes →
        let s := { c with position := c.position + t.stop }
        answers = t.strings ∧
          last = Action.refuse (.malformed s.position .unterminatedString) s) ∧
    ∀ t : StringTable, t.bytes.length < Size.blockLimit →
      (Action.perform Payload.inBuffer t.payloads .empty : Reply ByteBuffer ε Unit) =
        ⟨.value (), ⟨t.bytes⟩, []⟩ ∧
      ∀ answers last, Action.Repeats getString (fun _ => True) (ofBytes t.bytes) answers last →
        let s := { ofBytes t.bytes with position := t.stop }
        answers = t.strings ∧
          last = Action.refuse (.malformed t.stop .unterminatedString) s := by
  have h := held.framed
  obtain ⟨passed, stayed⟩ := h.getString_state
  obtain ⟨table, ahead⟩ := StringTable.exists_bytes_eq (c.window.drop c.position)
  have loop := h.repeats_getString table ahead.symm
  refine ⟨h.getStringAt_finds, (h.getStringAt_finds c.position).1.congr h.getString_outcome, passed,
    stayed, ⟨_, _, loop⟩, ?_, ?_⟩
  · intro answers last run
    refine ⟨?_, fun t text => (h.repeats_getString t text).unique run⟩
    rw [(loop.unique run).1, ← ahead, table.count_bytes]
  · intro t small
    have text : (ofBytes t.bytes).window.drop 0 = t.bytes := window_ofBytes t.bytes 0
    have whole := (InMemory.whole small).framed.repeats_getString t text
    rw [show (ofBytes t.bytes).position = 0 from rfl, Nat.zero_add] at whole
    refine ⟨?_, fun answers last run => whole.unique run⟩
    rw [Payload.perform_inBuffer (by rwa [t.flatMap_payloads]), t.flatMap_payloads]

/-- In a view that ends before a zero byte of the block: an empty string, one that is found, and
bytes that nothing in the view terminates; and the same bytes written as a table. -/
theorem getString_splits_view :
    let c : ByteCursor := ⟨[9, 0, 97, 98, 0, 99, 0], 1, 5, 0⟩
    let t : StringTable := ⟨[[], [97, 98]], [99], by decide, by decide⟩
    InMemory c ∧ (∃ last, Action.Repeats getString (fun _ => True) c [[], [97, 98]] last) ∧
      (getStringAt 4 c).outcome = .error (.malformed 4 .unterminatedString) ∧
      (getStringAt 6 c).outcome = .error (.outOfRange 6 0 5) ∧
      ((Action.perform Payload.inBuffer t.payloads .empty : Reply ByteBuffer Empty Unit).state =
        ⟨[0, 97, 98, 0, 99]⟩) := by
  intro c t
  have whole : InMemory (ofBytes [9, 0, 97, 98, 0, 99, 0]) := .whole (by decide)
  have made : (view (.exact 1 5) (ofBytes [9, 0, 97, 98, 0, 99, 0])).outcome = .value c := rfl
  have held : InMemory c := .viewed whole made
  obtain ⟨finds, -, -, -, ⟨answers, last, run⟩, each, written⟩ := getString_splits Empty held
  have strings : answers = [[], [97, 98]] := ((each answers last run).2 t (by decide)).1
  exact ⟨held, ⟨last, strings ▸ run⟩, (finds 4).1.unterminated.mpr (by decide),
    (finds 6).1.outside.mpr (by decide), congrArg Reply.state (written t (by decide)).1⟩

end BinaryStream.ByteCursor
