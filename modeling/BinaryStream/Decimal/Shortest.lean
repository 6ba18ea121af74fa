/-!
The fewest decimal digits that read back as a binary floating-point number, found in exact
arithmetic.

A positive number `m * 2 ^ q` is the rounding of every real in an interval around it, which
reaches halfway to its neighbours and contains its ends when `m` is even. Among decimals with a
given count of digits only the two around the number can be nearest, so each count is tried in
turn.
-/
namespace BinaryStream.Decimal

/-- A decimal number `0.d₁d₂…dₙ * 10 ^ (exponent + 1)`: the first digit counts `10 ^ exponent`. -/
structure Digits where
  digits : List Nat
  exponent : Int
  deriving DecidableEq, Inhabited

/-- A positive number `centre / scale` with the ends `low / scale` and `high / scale` of the
interval that rounds to it. -/
structure Interval where
  low : Nat
  centre : Nat
  high : Nat
  scale : Nat
  closed : Bool

namespace Interval

/-- The interval around `mantissa * 2 ^ exponent`; the lower neighbour of a power of two is
nearer. -/
def around (mantissa : Nat) (exponent : Int) (lowerNear : Bool) : Interval :=
  let unit := Nat.pow 2 (exponent - 2).toNat
  { low := (4 * mantissa - (if lowerNear then 1 else 2)) * unit
    centre := 4 * mantissa * unit
    high := (4 * mantissa + 2) * unit
    scale := Nat.pow 2 (2 - exponent).toNat
    closed := mantissa % 2 == 0 }

/-- `numerator / denominator` rounds to the number. -/
def contains (i : Interval) (numerator denominator : Nat) : Bool :=
  let x := numerator * i.scale
  if i.closed then i.low * denominator ≤ x && x ≤ i.high * denominator
  else i.low * denominator < x && x < i.high * denominator

/-- The power of ten of the number's leading digit. -/
def leading (i : Interval) : Int :=
  if i.scale ≤ i.centre then (Nat.toDigits 10 (i.centre / i.scale)).length - 1
  else -((Nat.toDigits 10 ((i.scale + i.centre - 1) / i.centre - 1)).length : Int)

/-- The nearest number with `count` digits that lies in the interval; of two equally near the
larger. -/
def nearest? (i : Interval) (count : Nat) : Option Digits :=
  let unit := i.leading - (count - 1 : Int)
  let up := Nat.pow 10 unit.toNat
  let down := Nat.pow 10 (-unit).toNat
  let below := i.centre * down / (i.scale * up)
  let above := below + 1
  let digits (n : Nat) : Digits :=
    let text := Nat.toDigits 10 n
    ⟨text.map (fun c => c.toNat - 48), unit + (text.length - 1 : Int)⟩
  let belowFits := 0 < below && i.contains (below * up) down
  let aboveFits := i.contains (above * up) down
  let aboveNear := above * up * i.scale - i.centre * down ≤ i.centre * down - below * up * i.scale
  match belowFits, aboveFits with
  | false, false => none
  | true, false => some (digits below)
  | false, true => some (digits above)
  | true, true => some (digits (if aboveNear then above else below))

/-- Tries ever more digits, at most `fuel` times. -/
def search (i : Interval) : Nat → Nat → Digits
  | 0, _ => ⟨[], 0⟩
  | fuel + 1, count =>
    match i.nearest? count with
    | some found => found
    | none => i.search fuel (count + 1)

/-- The digits of the shortest number in the interval; seventeen always suffice for 64 bits. -/
def shortest (i : Interval) : Digits :=
  let found := i.search 20 1
  { found with digits := (found.digits.reverse.dropWhile (· == 0)).reverse }

end Interval

end BinaryStream.Decimal
