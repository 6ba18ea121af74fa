import BinaryStream.Bytes

/-!
Writing a field of bits at the end of a buffer that may stop inside of a byte. The field is cut at
the ends of bytes; each piece fills the free bits of the last byte from the most significant one
on.
-/
namespace BinaryStream

/-- Bits packed into bytes, most significant first. -/
structure BitBuffer where
  data : List UInt8
  /-- The bits of the last byte that have not been written; they are zero. -/
  unset : Nat
  deriving DecidableEq, Inhabited

/-- The buffer with at least one free bit, in a new byte where the last one is full. -/
def BitBuffer.opened (b : BitBuffer) : BitBuffer :=
  if b.unset = 0 then ⟨b.data ++ [0], 8⟩ else b

/-- A field that is being written: the buffer so far and how many bits are still to come. -/
structure Scatter where
  buffer : BitBuffer
  left : Nat
  deriving DecidableEq

namespace Scatter

/-- The field's bits in the current byte. -/
def share (s : Scatter) : Nat := min s.buffer.opened.unset s.left

/-- Puts the current byte's piece of `value`; a buffer without a last byte is a fault. -/
def step (value : UInt64) (s : Scatter) : Except Fault Scatter :=
  let b := s.buffer.opened
  let left := s.left - s.share
  let unset := b.unset - s.share
  let mask := (1 : UInt64) <<< UInt64.ofNat s.share - 1
  let piece := (value >>> UInt64.ofNat left &&& mask).toUInt8
  if b.data.isEmpty then .error .bounds
  else .ok ⟨⟨Bytes.mapLast (· ||| piece <<< UInt8.ofNat unset) b.data, unset⟩, left⟩

theorem share_pos {s : Scatter} (more : s.left ≠ 0) : 0 < s.share := by
  unfold share BitBuffer.opened
  split
  · change 0 < min 8 s.left
    omega
  · omega

theorem step_left_lt {value : UInt64} {s next : Scatter} (more : s.left ≠ 0)
    (h : s.step value = .ok next) : next.left < s.left := by
  have pos := share_pos more
  unfold step at h
  simp only at h
  split at h
  · contradiction
  · cases h
    simp only
    omega

/-- The buffer with the whole field written. -/
def run (value : UInt64) (s : Scatter) : Except Fault BitBuffer :=
  if _ : s.left = 0 then .ok s.buffer
  else match _ : s.step value with
    | .error f => .error f
    | .ok next => next.run value
termination_by s.left
decreasing_by exact step_left_lt ‹_› ‹_›

end Scatter

end BinaryStream
