import BinaryStream.ByteCursor.Scalars
import BinaryStream.ByteCursor.Text
import BinaryStream.ByteCursor.Views

/-! What a byte cursor can be asked to do, and what it answers. -/
namespace BinaryStream.ByteCursor

inductive Command where
  | seek (position : Nat)
  | skip (size : Nat)
  | skipIf (expected : List UInt8)
  | truncate (length : Nat)
  | all
  | readAt (offset size : Nat)
  | peek (size : Nat)
  | read (size : Nat)
  | fillAt (offset : Nat) (buffer : List UInt8)
  | fill (buffer : List UInt8)
  | readUpToAt (offset size : Nat)
  | readUpTo (size : Nat)
  | fillUpToAt (offset : Nat) (buffer : List UInt8)
  | fillUpTo (buffer : List UInt8)
  | getAt (layout : Layout) (offset : Nat)
  | get (layout : Layout)
  | getArrayAt (layout : Layout) (offset count : Nat)
  | getArray (layout : Layout) (count : Nat)
  | getStringAt (offset : Nat)
  | getString
  | getLine
  | view (range : Range)
  | bitView (range : Range)
  deriving DecidableEq

inductive Answer where
  | done
  | flag (value : Bool)
  | bytes (value : List UInt8)
  | filled (count : Nat) (buffer : List UInt8)
  | scalar (layout : Layout) (value : layout.Value)
  | scalars (layout : Layout) (values : List layout.Value)
  | cursor (value : ByteCursor)
  | bits (value : BitCursor)
  deriving DecidableEq

def Command.run : Command → Action ByteCursor AccessError Answer
  | .seek position => do ByteCursor.seek position; pure .done
  | .skip size => do ByteCursor.skip size; pure .done
  | .skipIf expected => do let found ← ByteCursor.skipIf expected; pure (.flag found)
  | .truncate length => do ByteCursor.truncate length; pure .done
  | .all => do let bytes ← ByteCursor.all; pure (.bytes bytes)
  | .readAt offset size => do let bytes ← ByteCursor.readAt offset size; pure (.bytes bytes)
  | .peek size => do let bytes ← ByteCursor.peek size; pure (.bytes bytes)
  | .read size => do let bytes ← ByteCursor.read size; pure (.bytes bytes)
  | .fillAt offset buffer => do let bytes ← ByteCursor.fillAt offset buffer; pure (.bytes bytes)
  | .fill buffer => do let bytes ← ByteCursor.fill buffer; pure (.bytes bytes)
  | .readUpToAt offset size => do let bytes ← ByteCursor.readUpToAt offset size; pure (.bytes bytes)
  | .readUpTo size => do let bytes ← ByteCursor.readUpTo size; pure (.bytes bytes)
  | .fillUpToAt offset buffer => do
    let (count, bytes) ← ByteCursor.fillUpToAt offset buffer
    pure (.filled count bytes)
  | .fillUpTo buffer => do
    let (count, bytes) ← ByteCursor.fillUpTo buffer
    pure (.filled count bytes)
  | .getAt layout offset => do
    let value ← ByteCursor.getAt layout offset
    pure (.scalar layout value)
  | .get layout => do let value ← ByteCursor.get layout; pure (.scalar layout value)
  | .getArrayAt layout offset count => do
    let values ← ByteCursor.getArrayAt layout offset count
    pure (.scalars layout values)
  | .getArray layout count => do
    let values ← ByteCursor.getArray layout count
    pure (.scalars layout values)
  | .getStringAt offset => do let bytes ← ByteCursor.getStringAt offset; pure (.bytes bytes)
  | .getString => do let bytes ← ByteCursor.getString; pure (.bytes bytes)
  | .getLine => do let bytes ← ByteCursor.getLine; pure (.bytes bytes)
  | .view range => do let cursor ← ByteCursor.view range; pure (.cursor cursor)
  | .bitView range => do let cursor ← ByteCursor.bitView range; pure (.bits cursor)

end BinaryStream.ByteCursor
