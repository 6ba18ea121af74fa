import BinaryStream.ByteCursor.Basic

/-!
Texts in a byte cursor: strings that end with a zero byte, and lines. A string has to be terminated
inside of the window; a last line need not be.
-/
namespace BinaryStream.ByteCursor

/-- The zero-terminated string at `offset`, without its terminator. -/
def getStringAt (offset : Nat) : Action ByteCursor AccessError (List UInt8) := do
  let c ← Action.get
  let tail ← readAt offset (c.length - offset)
  let text := tail.takeWhile (· != 0)
  if text.length < tail.length then pure text
  else Action.refuse (.malformed offset .unterminatedString)

/-- The zero-terminated string at the position; its terminator is passed too. -/
def getString : Action ByteCursor AccessError (List UInt8) := do
  let c ← Action.get
  let text ← getStringAt c.position
  advance (text.length + 1)
  pure text

def lineFeed : UInt8 := 10
def carriageReturn : UInt8 := 13

/-- A line without the carriage return that belongs to its terminator. -/
def dropReturn (line : List UInt8) : List UInt8 :=
  if line.getLast? = some carriageReturn then line.dropLast else line

/-- The first line of a text without its terminator, and the bytes that it took. -/
def firstLine (text : List UInt8) : List UInt8 × Nat :=
  let line := text.takeWhile (· != lineFeed)
  if line.length < text.length then (dropReturn line, line.length + 1) else (text, text.length)

/-- The next line, which is passed with its terminator; refused only at the end. -/
def getLine : Action ByteCursor AccessError (List UInt8) := do
  let c ← Action.get
  if c.atEnd then Action.refuse (.outOfRange c.position 1 c.length)
  else
    let rest ← Action.ofExcept c.rest
    let (line, size) := firstLine rest
    advance size
    pure line

end BinaryStream.ByteCursor
