import BinaryStream.ByteCursor.Scalars

/-!
A byte cursor that reports every scalar read from it, after whatever the read itself reports. It
answers and moves as the cursor inside.
-/
namespace BinaryStream

structure LoggedCursor where
  cursor : ByteCursor
  deriving DecidableEq, Inhabited

namespace LoggedCursor

def get (l : Layout) : Action LoggedCursor AccessError l.Value := fun s =>
  ((ByteCursor.get l s.cursor).observed (.scalar l none)).mapState (⟨·⟩)

def getAt (l : Layout) (offset : Nat) : Action LoggedCursor AccessError l.Value := fun s =>
  ((ByteCursor.getAt l offset s.cursor).observed (.scalar l (some offset))).mapState (⟨·⟩)

def describe (s : LoggedCursor) : String :=
  s!"DbgScalarReader \x7b reader: {s.cursor.describe} \x7d"

end LoggedCursor

end BinaryStream
