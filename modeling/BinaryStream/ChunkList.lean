import BinaryStream.Action

/-!
Lists of chunks that are joined only at the end. Every write adds exactly one chunk, whatever it
holds, and the size kept beside the chunks is the sum of their lengths as far as they were written
here; a list read from a document brings its own.
-/
namespace BinaryStream

structure ChunkList where
  chunks : List (List UInt8)
  size : Nat
  deriving DecidableEq, Inhabited

namespace ChunkList

variable {ε : Type}

def empty : ChunkList := ⟨[], 0⟩

/-- The number of chunks, whatever they hold. -/
def length (c : ChunkList) : Nat := c.chunks.length

def isEmpty (c : ChunkList) : Bool := c.chunks.isEmpty

/-- Adds a chunk, copied or handed over; a size that would not be a word is a fault. -/
def write (chunk : List UInt8) : Action ChunkList ε Unit := do
  let c ← Action.get
  match Size.add? c.size chunk.length with
  | none => Action.fault .overflow
  | some size => Action.modify fun c => ⟨c.chunks ++ [chunk], size⟩

def put (l : Layout) (value : l.Value) : Action ChunkList ε Unit := write (l.encode value)

def writeText (text : String) : Action ChunkList ε Unit := write (Bytes.ofText text)

def writeParts (parts : List String) : Action ChunkList ε Unit :=
  write (parts.flatMap Bytes.ofText)

/-- The bytes that separators take between consecutive chunks. -/
def separatorSize (c : ChunkList) (separator : List UInt8) : Option Nat :=
  Size.mul? separator.length (c.chunks.length - 1)

/-- Puts chunks behind what is joined so far. Of all chunks only the first, which has the index
zero, comes without a separator before it. -/
def joinFrom (separator : List UInt8) : Nat → List UInt8 → List (List UInt8) → List UInt8
  | _, joined, [] => joined
  | i, joined, chunk :: rest =>
    let separated := if 0 < i then joined ++ separator else joined
    joinFrom separator (i + 1) (separated ++ chunk) rest

/-- All chunks with the separator between consecutive ones; the room for them is reckoned from the
size that is kept, and more than memory can hold is a fault. -/
def join (c : ChunkList) (separator : List UInt8) : Except Fault (List UInt8) :=
  match c.separatorSize separator with
  | none => .error .overflow
  | some separators =>
    match Size.add? c.size separators with
    | none => .error .overflow
    | some total =>
      if total < Size.blockLimit then .ok (joinFrom separator 0 [] c.chunks) else .error .capacity

def describe (c : ChunkList) : String :=
  let chunks := ", ".intercalate (c.chunks.map Bytes.describe)
  s!"ChunkWriter \x7b chunks: [{chunks}], size: {c.size} \x7d"

inductive Command where
  | write (chunk : List UInt8)
  | put (layout : Layout) (value : layout.Value)
  | writeText (text : String)
  | writeParts (parts : List String)
  deriving DecidableEq

def Command.run : Command → Action ChunkList Empty Unit
  | .write chunk => ChunkList.write chunk
  | .put layout value => ChunkList.put layout value
  | .writeText text => ChunkList.writeText text
  | .writeParts parts => ChunkList.writeParts parts

/-- Behind the first chunk the others come with a separator each. -/
theorem joinFrom_succ (separator joined chunk : List UInt8) (i : Nat) (rest : List (List UInt8)) :
    joinFrom separator (i + 1) joined (chunk :: rest) =
      joined ++ separator ++ separator.intercalate (chunk :: rest) := by
  induction rest generalizing i joined chunk with
  | nil => simp [joinFrom]
  | cons next rest ih =>
    rw [joinFrom, ih, List.intercalate_cons_cons]
    simp

theorem joinFrom_zero (separator : List UInt8) (chunks : List (List UInt8)) :
    joinFrom separator 0 [] chunks = separator.intercalate chunks := by
  match chunks with
  | [] => rfl
  | [chunk] => simp [joinFrom]
  | chunk :: next :: rest =>
    rw [joinFrom, joinFrom_succ, List.intercalate_cons_cons]
    simp

end ChunkList

end BinaryStream
