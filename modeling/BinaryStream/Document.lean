import BinaryStream.ByteBuffer
import BinaryStream.ChunkList
import BinaryStream.Json

/-!
The documents of a byte order, a growing buffer and a list of chunks: how each is written and which
documents are read back. The size of a list of chunks is taken from the document as it stands there.
-/
namespace BinaryStream

/-- Bytes as an array of numbers. -/
def Bytes.document (block : List UInt8) : String :=
  "[" ++ ",".intercalate (block.map fun b => toString b.toNat) ++ "]"

namespace ByteOrder

def document (order : ByteOrder) : String := s!"\"{order.name}\""

/-- A name, or an object with that name for its only key and nothing under it. -/
def ofJson? : Json → Option ByteOrder
  | .string units => (Json.name? units).bind ofName?
  | .object [(key, .null)] => (Json.name? key).bind ofName?
  | _ => none

def ofDocument? (text : String) : Option ByteOrder := (Json.ofText? text).bind ofJson?

end ByteOrder

namespace ByteBuffer

def document (b : ByteBuffer) : String :=
  s!"\x7b\"data\":{Bytes.document b.bytes}\x7d"

def ofJson? (json : Json) : Option ByteBuffer := do
  match ← json.fields? ["data"] with
  | [data] => (data.bytes?).map ByteBuffer.mk
  | _ => none

def ofDocument? (text : String) : Option ByteBuffer := (Json.ofText? text).bind ofJson?

end ByteBuffer

namespace ChunkList

def document (c : ChunkList) : String :=
  let chunks := ",".intercalate (c.chunks.map Bytes.document)
  s!"\x7b\"chunks\":[{chunks}],\"size\":{c.size}\x7d"

def ofJson? (json : Json) : Option ChunkList := do
  match ← json.fields? ["chunks", "size"] with
  | [chunks, size] =>
    let chunks ← (← chunks.items?).mapM Json.bytes?
    let size ← size.natural? Size.limit
    some ⟨chunks, size⟩
  | _ => none

def ofDocument? (text : String) : Option ChunkList := (Json.ofText? text).bind ofJson?

end ChunkList

end BinaryStream
