import BinaryStream.BitCursor

/-!
Sources of bits: a cursor, or a source that reports or counts what passes through it. Wrapping
changes neither answers nor movement.
-/
namespace BinaryStream

inductive BitSource where
  | cursor (c : BitCursor)
  /-- Reports every request; a skip before it is made, a read with its result. -/
  | logged (inner : BitSource)
  /-- Counts the bits read and skipped and, if told to, reports each successful request. -/
  | counted (prints : Bool) (count : Nat) (inner : BitSource)
  deriving DecidableEq, Inhabited

namespace BitSource

def base : BitSource → BitCursor
  | .cursor c => c
  | .logged inner | .counted _ _ inner => inner.base

def count? : BitSource → Option Nat
  | .counted _ count _ => some count
  | .cursor _ | .logged _ => none

def inner? : BitSource → Option BitSource
  | .cursor _ => none
  | .logged inner | .counted _ _ inner => some inner

/-- Reads up to 64 bits and passes them. -/
def readBits (n : Nat) : BitSource → Reply BitSource AccessError UInt64
  | .cursor c => (BitCursor.read n c).mapState .cursor
  | .logged inner => ((inner.readBits n).observed (.readBits n)).mapState .logged
  | .counted prints count inner =>
    match inner.readBits n with
    | ⟨.value value, next, log⟩ =>
      let total := count + n
      ⟨.value value, .counted prints total next,
        log ++ if prints then [.countedRead n value total] else []⟩
    | r => r.mapState (.counted prints count)

/-- Reads up to 64 bits and leaves them to be read again. -/
def peekBits (n : Nat) : BitSource → Reply BitSource AccessError UInt64
  | .cursor c => (BitCursor.peek n c).mapState .cursor
  | .logged inner => ((inner.peekBits n).observed (.peekBits n)).mapState .logged
  | .counted prints count inner => (inner.peekBits n).mapState (.counted prints count)

def skipBits (n : Nat) : BitSource → Reply BitSource AccessError Unit
  | .cursor c => (BitCursor.skip n c).mapState .cursor
  | .logged inner => ((inner.skipBits n).mapState .logged).after [.skipBits n]
  | .counted prints count inner =>
    match inner.skipBits n with
    | ⟨.value (), next, log⟩ =>
      let total := count + n
      ⟨.value (), .counted prints total next,
        log ++ if prints then [.countedSkip n total] else []⟩
    | r => r.mapState (.counted prints count)

def describe : BitSource → String
  | .cursor c => c.describe
  | .logged inner => s!"DbgBitReader \x7b reader: {inner.describe} \x7d"
  | .counted _ count inner =>
    s!"CountBitReader \x7b bit_read: {inner.describe}, bits_read: {count} \x7d"

inductive Command where
  | readBits (n : Nat)
  | peekBits (n : Nat)
  | skipBits (n : Nat)
  deriving DecidableEq

/-- The word read, if the command reads one. -/
def Command.run : Command → Action BitSource AccessError (Option UInt64)
  | .readBits n => do let value ← BitSource.readBits n; pure (some value)
  | .peekBits n => do let value ← BitSource.peekBits n; pure (some value)
  | .skipBits n => do BitSource.skipBits n; pure none

end BitSource

end BinaryStream
