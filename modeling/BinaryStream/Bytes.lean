import BinaryStream.Fault

/-!
Blocks of bytes as lists: a slice, a slice overwritten, text as bytes. Slices outside of the block
are faults, so a caller that has not checked its range is seen.
-/
namespace BinaryStream.Bytes

def slice (block : List UInt8) (offset size : Nat) : Except Fault (List UInt8) :=
  if offset + size ≤ block.length then .ok ((block.drop offset).take size) else .error .bounds

def tail (block : List UInt8) (offset : Nat) : Except Fault (List UInt8) :=
  if offset ≤ block.length then .ok (block.drop offset) else .error .bounds

/-- The block with the bytes at `offset` replaced by `payload`. -/
def overwrite (block : List UInt8) (offset : Nat) (payload : List UInt8) : List UInt8 :=
  block.take offset ++ payload ++ block.drop (offset + payload.length)

/-- Overwrites a range of the block, which keeps its length. -/
def store (block : List UInt8) (offset : Nat) (payload : List UInt8) :
    Except Fault (List UInt8) :=
  if offset + payload.length ≤ block.length then .ok (overwrite block offset payload)
  else .error .bounds

/-- The block extended to `size` bytes with copies of `fill`; it is never shortened. -/
def padTo (block : List UInt8) (size : Nat) (fill : UInt8) : List UInt8 :=
  block ++ List.replicate (size - block.length) fill

/-- The block with its last byte changed; an empty block has none. -/
def mapLast (f : UInt8 → UInt8) : List UInt8 → List UInt8
  | [] => []
  | [b] => [f b]
  | b :: next :: rest => b :: mapLast f (next :: rest)

def ofText (text : String) : List UInt8 := text.toUTF8.data.toList

def describe (block : List UInt8) : String :=
  "[" ++ ", ".intercalate (block.map fun b => toString b.toNat) ++ "]"

theorem length_overwrite {block payload : List UInt8} {offset : Nat}
    (inside : offset + payload.length ≤ block.length) :
    (overwrite block offset payload).length = block.length := by
  simp [overwrite]
  omega

theorem length_padTo (block : List UInt8) (size : Nat) (fill : UInt8) :
    (padTo block size fill).length = max block.length size := by
  simp [padTo]
  omega

theorem padTo_of_le {block : List UInt8} {size : Nat} (enough : size ≤ block.length)
    (fill : UInt8) : padTo block size fill = block := by
  simp [padTo, enough]

theorem le_length_padTo (block : List UInt8) (size : Nat) (fill : UInt8) :
    size ≤ (padTo block size fill).length := by
  rw [length_padTo]
  exact Nat.le_max_right _ _

/-- The bytes of the range are the payload's and all others are as before. -/
theorem getElem?_overwrite {block payload : List UInt8} {offset : Nat}
    (inside : offset + payload.length ≤ block.length) (i : Nat) :
    (overwrite block offset payload)[i]? =
      if offset ≤ i ∧ i < offset + payload.length then payload[i - offset]? else block[i]? := by
  have front : (block.take offset).length = offset := by
    rw [List.length_take]
    omega
  rw [overwrite, List.append_assoc]
  by_cases before : i < offset
  · rw [List.getElem?_append_left (by omega), List.getElem?_take_of_lt before, if_neg (by omega)]
  · rw [List.getElem?_append_right (by omega), front]
    by_cases within : i < offset + payload.length
    · rw [List.getElem?_append_left (by omega), if_pos ⟨by omega, within⟩]
    · rw [List.getElem?_append_right (by omega), List.getElem?_drop, if_neg (by omega)]
      congr 1
      omega

theorem overwrite_singleton {block : List UInt8} {i : Nat} (inside : i < block.length) (b : UInt8) :
    overwrite block i [b] = block.set i b := by
  simp [overwrite, List.set_eq_take_append_cons_drop, inside]

/-- Within the first of two blocks an overwrite leaves the second alone. -/
theorem overwrite_append_of_le {front payload : List UInt8} {offset : Nat}
    (inside : offset + payload.length ≤ front.length) (tail : List UInt8) :
    overwrite (front ++ tail) offset payload = overwrite front offset payload ++ tail := by
  rw [overwrite, overwrite, List.take_append_of_le_length (by omega),
    List.drop_append_of_le_length inside, List.append_assoc _ _ tail]

/-- From the second of two blocks on an overwrite leaves the first alone. -/
theorem overwrite_append_length (front tail payload : List UInt8) :
    overwrite (front ++ tail) front.length payload =
      front ++ payload ++ tail.drop payload.length := by
  rw [overwrite, List.take_left, ← List.drop_drop, List.drop_left]

/-- The bytes of the block stay and all new ones are `fill`. -/
theorem getElem?_padTo (block : List UInt8) (size : Nat) (fill : UInt8) (i : Nat) :
    (padTo block size fill)[i]? =
      if i < block.length then block[i]? else if i < size then some fill else none := by
  rw [padTo]
  by_cases old : i < block.length
  · rw [List.getElem?_append_left old, if_pos old]
  · rw [List.getElem?_append_right (by omega), List.getElem?_replicate, if_neg old]
    congr 1
    exact propext (by omega)

end BinaryStream.Bytes
