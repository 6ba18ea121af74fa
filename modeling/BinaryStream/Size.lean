import BinaryStream.Fault

/-!
Sizes, offsets and counts are 64-bit words. Sums and products of them are formed only where the
result is a word; one block of memory holds fewer than `2 ^ 63` bytes.
-/
namespace BinaryStream.Size

/-- One more than the largest word, which has 64 bits. -/
def limit : Nat := 0x10000000000000000

/-- The largest word, which stands for a size too large to be one. -/
def top : Nat := limit - 1

/-- One more than the largest block of memory. -/
def blockLimit : Nat := 0x8000000000000000

/-- The sum, when it is a word. -/
def add? (a b : Nat) : Option Nat :=
  if a + b < limit then some (a + b) else none

def mul? (a b : Nat) : Option Nat :=
  if a * b < limit then some (a * b) else none

/-- The sum of two words, in a place that expects it to be one. -/
def sum (a b : Nat) : Except Fault Nat :=
  match add? a b with
  | some c => .ok c
  | none => .error .overflow

/-- The difference of two words, in a place that expects the first to be the larger. -/
def difference (a b : Nat) : Except Fault Nat :=
  if b ≤ a then .ok (a - b) else .error .overflow

def product (a b : Nat) : Except Fault Nat :=
  match mul? a b with
  | some c => .ok c
  | none => .error .overflow

def fits (offset size length : Nat) : Bool :=
  match add? offset size with
  | some stop => stop ≤ length
  | none => false

theorem add?_eq_some_iff {a b c : Nat} : add? a b = some c ↔ a + b < limit ∧ a + b = c := by
  unfold add?
  split <;> simp [*]

theorem sum_of_lt {a b : Nat} (small : a + b < limit) : sum a b = .ok (a + b) := by
  simp [sum, add?, small]

theorem difference_of_le {a b : Nat} (ordered : b ≤ a) : difference a b = .ok (a - b) := by
  simp [difference, ordered]

theorem product_of_lt {a b : Nat} (small : a * b < limit) : product a b = .ok (a * b) := by
  simp [product, mul?, small]

theorem product_eq_ok_iff {a b c : Nat} : product a b = .ok c ↔ a * b < limit ∧ a * b = c := by
  by_cases small : a * b < limit <;> simp [product, mul?, small]

/-- Overflow never changes the answer: a sum that is no word exceeds every length that is one. -/
theorem fits_eq_true_iff {offset size length : Nat} (small : length < limit) :
    fits offset size length = true ↔ offset + size ≤ length := by
  unfold fits add?
  split <;> rename_i h <;> split at h <;> simp_all
  omega

end BinaryStream.Size
