import BinaryStream.Proofs.ByteCursor.Safety

/-!
Lines. Reading line after line comes to the end of the window, and what was read are the pieces of
the text between line feeds: a carriage return belongs to the line feed behind it, and only there.
Lines that hold no line feed and do not end in a carriage return are read as they were written,
whatever mix of terminators stands between them.
-/
namespace BinaryStream.ByteCursor

/-- The pieces of a text between line feeds, all but the last without the carriage return of their
line feed; no line stands behind a line feed that ends the text. -/
def lines (text : List UInt8) : List (List UInt8) :=
  let pieces := text.splitOn lineFeed
  pieces.dropLast.map dropReturn ++ pieces.getLast?.toList.filter (· ≠ [])

theorem dropReturn_concat (line : List UInt8) : dropReturn (line ++ [carriageReturn]) = line := by
  simp [dropReturn]

theorem dropReturn_of_ne {line : List UInt8} (other : line.getLast? ≠ some carriageReturn) :
    dropReturn line = line :=
  if_neg other

theorem mem_of_mem_dropReturn {line : List UInt8} {b : UInt8} (member : b ∈ dropReturn line) :
    b ∈ line := by
  rw [dropReturn] at member
  split at member
  · exact List.dropLast_subset line member
  · exact member

/-! The first line of a text and the lines behind it. -/

section FirstLine

variable {line : List UInt8}

theorem lines_of_terminated (one : lineFeed ∉ line) (rest : List UInt8) :
    lines (line ++ lineFeed :: rest) = dropReturn line :: lines rest := by
  have behind : rest.splitOn lineFeed ≠ [] := List.splitOn_ne_nil lineFeed rest
  rw [lines, List.splitOn_append_cons_self_of_not_mem one, List.dropLast_cons_of_ne_nil behind,
    List.getLast?_cons_of_ne_nil behind]
  rfl

theorem lines_of_unterminated (one : lineFeed ∉ line) (filled : line ≠ []) :
    lines line = [line] := by
  simp [lines, List.splitOn_eq_singleton one, filled]

theorem firstLine_of_terminated (one : lineFeed ∉ line) (rest : List UInt8) :
    firstLine (line ++ lineFeed :: rest) = (dropReturn line, line.length + 1) := by
  have before : (line ++ lineFeed :: rest).takeWhile (· != lineFeed) = line := by
    rw [Framed.takeWhile_ne_append one, List.takeWhile_cons_of_neg (by simp), List.append_nil]
  rw [firstLine, before, if_pos (by simp)]

theorem firstLine_of_unterminated (one : lineFeed ∉ line) :
    firstLine line = (line, line.length) := by
  have before : line.takeWhile (· != lineFeed) = line := by
    simpa using Framed.takeWhile_ne_append one []
  rw [firstLine, before, if_neg (Nat.lt_irrefl _)]

end FirstLine

section Text

variable {text : List UInt8}

theorem lines_eq_cons (filled : text ≠ []) :
    lines text = (firstLine text).1 :: lines (text.drop (firstLine text).2) := by
  by_cases ends : lineFeed ∈ text
  · obtain ⟨line, rest, rfl, one⟩ := List.eq_append_cons_of_mem ends
    have behind : (line ++ lineFeed :: rest).drop (line.length + 1) = rest := by
      rw [List.drop_length_add_append]
      rfl
    rw [firstLine_of_terminated one, lines_of_terminated one, behind]
  · rw [firstLine_of_unterminated ends, lines_of_unterminated ends filled, List.drop_length]
    rfl

theorem firstLine_size_pos (filled : text ≠ []) : 0 < (firstLine text).2 := by
  simp only [firstLine]
  split
  · exact Nat.succ_pos _
  · exact List.length_pos_iff.mpr filled

theorem lineFeed_not_mem_firstLine (text : List UInt8) : lineFeed ∉ (firstLine text).1 := by
  by_cases ends : lineFeed ∈ text
  · obtain ⟨line, rest, rfl, one⟩ := List.eq_append_cons_of_mem ends
    rw [firstLine_of_terminated one]
    exact fun member => one (mem_of_mem_dropReturn member)
  · rwa [firstLine_of_unterminated ends]

end Text

/-! Lines as they are written. -/

inductive Terminator where
  | newline
  | returnNewline

def Terminator.bytes : Terminator → List UInt8
  | newline => [lineFeed]
  | returnNewline => [carriageReturn, lineFeed]

/-- Bytes that can be told from the terminator behind them. -/
structure Line where
  bytes : List UInt8
  one : lineFeed ∉ bytes
  plain : bytes.getLast? ≠ some carriageReturn

def written (document : List (Line × Terminator)) : List UInt8 :=
  document.flatMap fun (line, terminator) => line.bytes ++ terminator.bytes

theorem lines_written_cons (line : Line) (terminator : Terminator) (rest : List UInt8) :
    lines (line.bytes ++ terminator.bytes ++ rest) = line.bytes :: lines rest := by
  cases terminator with
  | newline =>
    have first := lines_of_terminated line.one rest
    rw [dropReturn_of_ne line.plain] at first
    rw [← first, List.append_assoc]
    rfl
  | returnNewline =>
    -- What stands before the line feed is the line and its return, which is dropped.
    have one : lineFeed ∉ line.bytes ++ [carriageReturn] := by
      rw [List.mem_append, List.mem_singleton]
      rintro (inside | same)
      · exact line.one inside
      · exact absurd same (by decide)
    have first := lines_of_terminated one rest
    rw [dropReturn_concat] at first
    rw [← first, List.append_assoc, List.append_assoc]
    rfl

theorem lines_written (document : List (Line × Terminator)) :
    lines (written document) = document.map (·.1.bytes) := by
  induction document with
  | nil => rfl
  | cons first document ih =>
    rw [written, List.flatMap_cons, lines_written_cons, List.map_cons, ← ih]
    rfl

/-! Reading line after line. -/

variable {c : ByteCursor}

namespace Framed

/-- A line that is read is the first of those ahead, and the others stay ahead. -/
theorem getLine_answered (h : Framed c) {line : List UInt8}
    (answered : (getLine c).outcome = .value line) :
    ∃ position, (getLine c).state = { c with position } ∧
      c.position < position ∧ position ≤ c.length ∧
      lines (c.window.drop c.position) = line :: lines (c.window.drop position) ∧
      lineFeed ∉ line := by
  rw [h.getLine_apply] at answered ⊢
  split at answered
  · rename_i inside
    cases answered
    have filled : c.window.drop c.position ≠ [] := by
      rw [Ne, List.drop_eq_nil_iff, h.length_window]
      omega
    have split := lines_eq_cons filled
    rw [List.drop_drop] at split
    rw [if_pos inside]
    exact ⟨_, rfl, Nat.lt_add_of_pos_right (firstLine_size_pos filled), h.line_le, split,
      lineFeed_not_mem_firstLine _⟩
  · cases answered

theorem getLine_unanswered (h : Framed c) (unanswered : ∀ line, (getLine c).outcome ≠ .value line) :
    c.position = c.length ∧
      getLine c = Action.refuse (.outOfRange c.length 1 c.length) c := by
  rw [h.getLine_apply] at unanswered ⊢
  by_cases inside : c.position < c.length
  · rw [if_pos inside] at unanswered
    exact absurd rfl (unanswered _)
  · have done : c.position = c.length := Nat.le_antisymm h.position_le (Nat.le_of_not_lt inside)
    rw [if_neg inside, done]
    exact ⟨rfl, rfl⟩

theorem exists_repeats_getLine (h : Framed c) :
    ∃ answers last, Action.Repeats getLine (fun _ => True) c answers last ∧
      answers.length ≤ c.remaining := by
  refine Action.exists_repeats ?_ h
  intro s line held answered _
  obtain ⟨position, moved, further, inside, -, -⟩ := held.getLine_answered answered
  rw [moved]
  exact ⟨held.moved inside, Nat.sub_lt_sub_left (Nat.lt_of_lt_of_le further inside) further⟩

theorem eq_of_repeats_getLine (h : Framed c) {answers : List (List UInt8)}
    {last : Reply ByteCursor AccessError (List UInt8)}
    (run : Action.Repeats getLine (fun _ => True) c answers last) :
    answers = lines (c.window.drop c.position) ∧
      last = Action.refuse (.outOfRange c.length 1 c.length) { c with position := c.length } ∧
      ∀ line ∈ answers, lineFeed ∉ line := by
  induction run with
  | @ended c last =>
    obtain ⟨done, refused⟩ := h.getLine_unanswered fun line found => last line found trivial
    have behind : c.window.drop c.position = [] := by
      rw [List.drop_eq_nil_iff, h.length_window]
      exact Nat.le_of_eq done.symm
    rw [refused, behind, moved_here done]
    exact ⟨rfl, rfl, nofun⟩
  | @again c line answers last answered on rest ih =>
    obtain ⟨position, moved, -, inside, split, one⟩ := h.getLine_answered answered
    rw [moved] at ih
    obtain ⟨others, ends, all⟩ := ih (h.moved inside)
    rw [split, others]
    refine ⟨rfl, ends, ?_⟩
    rw [List.forall_mem_cons]
    exact ⟨one, others ▸ all⟩

end Framed

/-- Line after line is read, each of which moves the position, until there is none left: that is
refused and moves nothing. What was read are the lines of the text ahead, of which there are no more
than bytes, and no line holds a line feed. A text that was written line by line, each behind any
terminator, is read as these lines. -/
theorem getLine_splits (held : InMemory c) :
    let text := c.window.drop c.position
    (∀ line, (getLine c).outcome = .value line →
      c.position < (getLine c).state.position ∧ (getLine c).state.position ≤ c.length) ∧
    ((∀ line, (getLine c).outcome ≠ .value line) →
      c.position = c.length ∧ getLine c = Action.refuse (.outOfRange c.length 1 c.length) c) ∧
    (∃ answers last, Action.Repeats getLine (fun _ => True) c answers last) ∧
    ∀ answers last, Action.Repeats getLine (fun _ => True) c answers last →
      answers.length ≤ text.length ∧ answers = lines text ∧
      last = Action.refuse (.outOfRange c.length 1 c.length) { c with position := c.length } ∧
      (∀ line ∈ answers, lineFeed ∉ line) ∧
      ∀ document, text = written document → answers = document.map (·.1.bytes) := by
  intro text
  have h := held.framed
  refine ⟨?_, h.getLine_unanswered, ?_, ?_⟩
  · intro line answered
    obtain ⟨position, moved, further, inside, -, -⟩ := h.getLine_answered answered
    rw [moved]
    exact ⟨further, inside⟩
  · obtain ⟨answers, last, run, -⟩ := h.exists_repeats_getLine
    exact ⟨answers, last, run⟩
  · intro answers last run
    obtain ⟨same, ends, all⟩ := h.eq_of_repeats_getLine run
    obtain ⟨answers', last', run', few⟩ := h.exists_repeats_getLine
    rw [(h.eq_of_repeats_getLine run').1, ← same] at few
    refine ⟨?_, same, ends, all, ?_⟩
    · rw [List.length_drop, h.length_window]
      exact few
    · rintro document ahead
      rw [same, ← lines_written, ← ahead]

/-- A return without a line feed stays, two before one lose the last, and a line that nothing ends
keeps its return. -/
theorem getLine_splits_returns :
    let c := ofBytes [97, 13, 98, 13, 13, 10, 10, 99, 13]
    InMemory c ∧ (∃ last, Action.Repeats getLine (fun _ => True) c
      [[97, 13, 98, 13], [], [99, 13]] last) ∧
      ∀ answers last, Action.Repeats getLine (fun _ => True) c answers last →
        answers = [[97, 13, 98, 13], [], [99, 13]] ∧ last.state.position = 9 := by
  intro c
  have held : InMemory c := .whole (by decide)
  obtain ⟨-, -, ⟨answers, last, run⟩, each⟩ := getLine_splits held
  have split : lines (c.window.drop c.position) = [[97, 13, 98, 13], [], [99, 13]] := by decide
  have all : ∀ answers last, Action.Repeats getLine (fun _ => True) c answers last →
      answers = [[97, 13, 98, 13], [], [99, 13]] ∧ last.state.position = 9 := by
    intro answers last run
    obtain ⟨-, same, rfl, -⟩ := each answers last run
    exact ⟨same.trans split, rfl⟩
  exact ⟨held, ⟨last, (all answers last run).1 ▸ run⟩, all⟩

end BinaryStream.ByteCursor
