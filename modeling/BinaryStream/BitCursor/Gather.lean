import BinaryStream.Fault

/-!
Reading a field of bits out of bytes. The bits of a byte are numbered from the most significant
one; a field is cut at the ends of bytes, and each piece is appended to the number read so far.
-/
namespace BinaryStream

/-- A field that is being read: the number of its next bit, how many bits are still to come, and the
number made by those that came. -/
structure Gather where
  position : Nat
  left : Nat
  value : UInt64
  deriving DecidableEq

namespace Gather

/-- The field's bits in the current byte. -/
def share (g : Gather) : Nat := min (8 - g.position % 8) g.left

/-- Takes the current byte's piece of the field; a byte that is not there is a fault. -/
def step (bytes : List UInt8) (g : Gather) : Except Fault Gather :=
  match bytes[g.position / 8]? with
  | none => .error .bounds
  | some b =>
    let piece := b <<< UInt8.ofNat (g.position % 8) >>> UInt8.ofNat (8 - g.share)
    .ok ⟨g.position + g.share, g.left - g.share,
      g.value <<< UInt64.ofNat g.share ||| piece.toUInt64⟩

theorem share_pos {g : Gather} (more : g.left ≠ 0) : 0 < g.share := by
  unfold share
  omega

theorem step_left_lt {bytes : List UInt8} {g next : Gather} (more : g.left ≠ 0)
    (h : g.step bytes = .ok next) : next.left < g.left := by
  have pos := share_pos more
  unfold step at h
  split at h
  · contradiction
  · cases h
    simp only
    omega

/-- The number that the whole field makes. -/
def run (bytes : List UInt8) (g : Gather) : Except Fault UInt64 :=
  if _ : g.left = 0 then .ok g.value
  else match _ : g.step bytes with
    | .error f => .error f
    | .ok next => next.run bytes
termination_by g.left
decreasing_by exact step_left_lt ‹_› ‹_›

end Gather

end BinaryStream
