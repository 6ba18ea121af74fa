import BinaryStream.Layout

/-!
The names of the typed accessors. A name is a letter for the kind of number, its width in bits and a
letter for the byte order: `b` big, `l` little, `r` against the machine, none as the machine. Bytes
have no order to name. Reads, writes in order and writes at an offset have a table each, which are
the definition; the rule beside them reads a name by its letters.
-/
namespace BinaryStream

namespace Layout

/-- The names of the typed reads, in order and at an offset, with the layout they read. -/
def accessors : List (String × Layout) :=
  [ ("u8", ⟨.native, .unsigned .w8⟩), ("s8", ⟨.native, .signed .w8⟩),
    ("u16", ⟨.native, .unsigned .w16⟩), ("u16r", ⟨.reversed, .unsigned .w16⟩),
    ("u16b", ⟨.big, .unsigned .w16⟩), ("u16l", ⟨.little, .unsigned .w16⟩),
    ("s16", ⟨.native, .signed .w16⟩), ("s16r", ⟨.reversed, .signed .w16⟩),
    ("s16b", ⟨.big, .signed .w16⟩), ("s16l", ⟨.little, .signed .w16⟩),
    ("u24", ⟨.native, .unsigned .w24⟩), ("u24r", ⟨.reversed, .unsigned .w24⟩),
    ("u24b", ⟨.big, .unsigned .w24⟩), ("u24l", ⟨.little, .unsigned .w24⟩),
    ("s24", ⟨.native, .signed .w24⟩), ("s24r", ⟨.reversed, .signed .w24⟩),
    ("s24b", ⟨.big, .signed .w24⟩), ("s24l", ⟨.little, .signed .w24⟩),
    ("u32", ⟨.native, .unsigned .w32⟩), ("u32r", ⟨.reversed, .unsigned .w32⟩),
    ("u32b", ⟨.big, .unsigned .w32⟩), ("u32l", ⟨.little, .unsigned .w32⟩),
    ("s32", ⟨.native, .signed .w32⟩), ("s32r", ⟨.reversed, .signed .w32⟩),
    ("s32b", ⟨.big, .signed .w32⟩), ("s32l", ⟨.little, .signed .w32⟩),
    ("u48", ⟨.native, .unsigned .w48⟩), ("u48r", ⟨.reversed, .unsigned .w48⟩),
    ("u48b", ⟨.big, .unsigned .w48⟩), ("u48l", ⟨.little, .unsigned .w48⟩),
    ("s48", ⟨.native, .signed .w48⟩), ("s48r", ⟨.reversed, .signed .w48⟩),
    ("s48b", ⟨.big, .signed .w48⟩), ("s48l", ⟨.little, .signed .w48⟩),
    ("u64", ⟨.native, .unsigned .w64⟩), ("u64r", ⟨.reversed, .unsigned .w64⟩),
    ("u64b", ⟨.big, .unsigned .w64⟩), ("u64l", ⟨.little, .unsigned .w64⟩),
    ("s64", ⟨.native, .signed .w64⟩), ("s64r", ⟨.reversed, .signed .w64⟩),
    ("s64b", ⟨.big, .signed .w64⟩), ("s64l", ⟨.little, .signed .w64⟩),
    ("f32", ⟨.native, .binary32⟩), ("f32r", ⟨.reversed, .binary32⟩),
    ("f32b", ⟨.big, .binary32⟩), ("f32l", ⟨.little, .binary32⟩),
    ("f64", ⟨.native, .binary64⟩), ("f64r", ⟨.reversed, .binary64⟩),
    ("f64b", ⟨.big, .binary64⟩), ("f64l", ⟨.little, .binary64⟩) ]

/-- The names of the typed writes in order. -/
def putters : List (String × Layout) :=
  [ ("u8", ⟨.native, .unsigned .w8⟩), ("s8", ⟨.native, .signed .w8⟩),
    ("u16", ⟨.native, .unsigned .w16⟩), ("u16r", ⟨.reversed, .unsigned .w16⟩),
    ("u16b", ⟨.big, .unsigned .w16⟩), ("u16l", ⟨.little, .unsigned .w16⟩),
    ("s16", ⟨.native, .signed .w16⟩), ("s16r", ⟨.reversed, .signed .w16⟩),
    ("s16b", ⟨.big, .signed .w16⟩), ("s16l", ⟨.little, .signed .w16⟩),
    ("u24", ⟨.native, .unsigned .w24⟩), ("u24r", ⟨.reversed, .unsigned .w24⟩),
    ("u24b", ⟨.big, .unsigned .w24⟩), ("u24l", ⟨.little, .unsigned .w24⟩),
    ("s24", ⟨.native, .signed .w24⟩), ("s24r", ⟨.reversed, .signed .w24⟩),
    ("s24b", ⟨.big, .signed .w24⟩), ("s24l", ⟨.little, .signed .w24⟩),
    ("u32", ⟨.native, .unsigned .w32⟩), ("u32r", ⟨.reversed, .unsigned .w32⟩),
    ("u32b", ⟨.big, .unsigned .w32⟩), ("u32l", ⟨.little, .unsigned .w32⟩),
    ("s32", ⟨.native, .signed .w32⟩), ("s32r", ⟨.reversed, .signed .w32⟩),
    ("s32b", ⟨.big, .signed .w32⟩), ("s32l", ⟨.little, .signed .w32⟩),
    ("u48", ⟨.native, .unsigned .w48⟩), ("u48r", ⟨.reversed, .unsigned .w48⟩),
    ("u48b", ⟨.big, .unsigned .w48⟩), ("u48l", ⟨.little, .unsigned .w48⟩),
    ("s48", ⟨.native, .signed .w48⟩), ("s48r", ⟨.reversed, .signed .w48⟩),
    ("s48b", ⟨.big, .signed .w48⟩), ("s48l", ⟨.little, .signed .w48⟩),
    ("u64", ⟨.native, .unsigned .w64⟩), ("u64r", ⟨.reversed, .unsigned .w64⟩),
    ("u64b", ⟨.big, .unsigned .w64⟩), ("u64l", ⟨.little, .unsigned .w64⟩),
    ("s64", ⟨.native, .signed .w64⟩), ("s64r", ⟨.reversed, .signed .w64⟩),
    ("s64b", ⟨.big, .signed .w64⟩), ("s64l", ⟨.little, .signed .w64⟩),
    ("f32", ⟨.native, .binary32⟩), ("f32r", ⟨.reversed, .binary32⟩),
    ("f32b", ⟨.big, .binary32⟩), ("f32l", ⟨.little, .binary32⟩),
    ("f64", ⟨.native, .binary64⟩), ("f64r", ⟨.reversed, .binary64⟩),
    ("f64b", ⟨.big, .binary64⟩), ("f64l", ⟨.little, .binary64⟩) ]

/-- The names of the typed writes at an offset. -/
def placers : List (String × Layout) :=
  [ ("u8", ⟨.native, .unsigned .w8⟩), ("s8", ⟨.native, .signed .w8⟩),
    ("u16", ⟨.native, .unsigned .w16⟩), ("u16r", ⟨.reversed, .unsigned .w16⟩),
    ("u16b", ⟨.big, .unsigned .w16⟩), ("u16l", ⟨.little, .unsigned .w16⟩),
    ("s16", ⟨.native, .signed .w16⟩), ("s16r", ⟨.reversed, .signed .w16⟩),
    ("s16b", ⟨.big, .signed .w16⟩), ("s16l", ⟨.little, .signed .w16⟩),
    ("u24", ⟨.native, .unsigned .w24⟩), ("u24r", ⟨.reversed, .unsigned .w24⟩),
    ("u24b", ⟨.big, .unsigned .w24⟩), ("u24l", ⟨.little, .unsigned .w24⟩),
    ("s24", ⟨.native, .signed .w24⟩), ("s24r", ⟨.reversed, .signed .w24⟩),
    ("s24b", ⟨.big, .signed .w24⟩), ("s24l", ⟨.little, .signed .w24⟩),
    ("u32", ⟨.native, .unsigned .w32⟩), ("u32r", ⟨.reversed, .unsigned .w32⟩),
    ("u32b", ⟨.big, .unsigned .w32⟩), ("u32l", ⟨.little, .unsigned .w32⟩),
    ("s32", ⟨.native, .signed .w32⟩), ("s32r", ⟨.reversed, .signed .w32⟩),
    ("s32b", ⟨.big, .signed .w32⟩), ("s32l", ⟨.little, .signed .w32⟩),
    ("u48", ⟨.native, .unsigned .w48⟩), ("u48r", ⟨.reversed, .unsigned .w48⟩),
    ("u48b", ⟨.big, .unsigned .w48⟩), ("u48l", ⟨.little, .unsigned .w48⟩),
    ("s48", ⟨.native, .signed .w48⟩), ("s48r", ⟨.reversed, .signed .w48⟩),
    ("s48b", ⟨.big, .signed .w48⟩), ("s48l", ⟨.little, .signed .w48⟩),
    ("u64", ⟨.native, .unsigned .w64⟩), ("u64r", ⟨.reversed, .unsigned .w64⟩),
    ("u64b", ⟨.big, .unsigned .w64⟩), ("u64l", ⟨.little, .unsigned .w64⟩),
    ("s64", ⟨.native, .signed .w64⟩), ("s64r", ⟨.reversed, .signed .w64⟩),
    ("s64b", ⟨.big, .signed .w64⟩), ("s64l", ⟨.little, .signed .w64⟩),
    ("f32", ⟨.native, .binary32⟩), ("f32r", ⟨.reversed, .binary32⟩),
    ("f32b", ⟨.big, .binary32⟩), ("f32l", ⟨.little, .binary32⟩),
    ("f64", ⟨.native, .binary64⟩), ("f64r", ⟨.reversed, .binary64⟩),
    ("f64b", ⟨.big, .binary64⟩), ("f64l", ⟨.little, .binary64⟩) ]

def ofAccessor? (name : String) : Option Layout :=
  accessors.lookup name

def ofPutter? (name : String) : Option Layout :=
  putters.lookup name

def ofPlacer? (name : String) : Option Layout :=
  placers.lookup name

/-- The order that the last letters of a name ask for. -/
def orderOfSuffix? : List Char → Option ByteOrder
  | [] => some .native
  | ['r'] => some .reversed
  | ['b'] => some .big
  | ['l'] => some .little
  | _ => none

end Layout

/-- What a name says: the kind of number, its width in bits and its byte order. -/
structure Spelling where
  kind : Char
  bits : Nat
  order : ByteOrder
  deriving DecidableEq

/-- A letter, a number and the letter of an order. -/
def Spelling.ofName? (name : String) : Option Spelling :=
  match name.toList with
  | [] => none
  | kind :: rest =>
    (Layout.orderOfSuffix? (rest.dropWhile Char.isDigit)).map fun order =>
      ⟨kind, Nat.ofDigitChars 10 (rest.takeWhile Char.isDigit) 0, order⟩

def Scalar.letter : Scalar → Char
  | .unsigned _ => 'u'
  | .signed _ => 's'
  | .binary32 | .binary64 => 'f'

def Layout.spelling (l : Layout) : Spelling := ⟨l.scalar.letter, l.scalar.width.bits, l.order⟩

/-- Every name of the table means what its letters say. -/
theorem Layout.spelling_of_mem :
    ∀ row ∈ accessors, Spelling.ofName? row.1 = some row.2.spelling := by
  decide

end BinaryStream
