import BinaryStream.Decimal.Shortest

/-!
The text of a binary floating-point number: its shortest digits, written positionally while the
number is of everyday size and with a power of ten beyond that.
-/
namespace BinaryStream.Decimal

/-- A binary format with an implicit leading bit: the widths of its stored fields. -/
structure BinaryFormat where
  fractionBits : Nat
  exponentBits : Nat

def binary32 : BinaryFormat := ⟨23, 8⟩
def binary64 : BinaryFormat := ⟨52, 11⟩

namespace BinaryFormat

variable (f : BinaryFormat)

def fraction (pattern : Nat) : Nat := pattern % Nat.pow 2 f.fractionBits

def biasedExponent (pattern : Nat) : Nat :=
  pattern / Nat.pow 2 f.fractionBits % Nat.pow 2 f.exponentBits

def isNegative (pattern : Nat) : Bool :=
  pattern / Nat.pow 2 (f.fractionBits + f.exponentBits) % 2 == 1

/-- The digits of the finite, nonzero number with this pattern, its sign left out. -/
def shortestDigits (pattern : Nat) : Digits :=
  let fraction := f.fraction pattern
  let biased := f.biasedExponent pattern
  let least : Int := 2 - (Nat.pow 2 (f.exponentBits - 1) : Int) - f.fractionBits
  if biased == 0 then (Interval.around fraction least false).shortest
  else
    let lowerNear := fraction == 0 && 1 < biased
    let mantissa := fraction + Nat.pow 2 f.fractionBits
    (Interval.around mantissa (least + (biased - 1 : Int)) lowerNear).shortest

end BinaryFormat

namespace Digits

def text (digits : List Nat) : String := String.ofList (digits.map Nat.digitChar)

/-- Leading digits from `10 ^ -4` to `10 ^ 15` are written positionally, with at least one place
after the point; others as a number below ten and a power of ten, without a point where there is
none. -/
def render (d : Digits) : String :=
  if d.exponent < -4 || 15 < d.exponent then
    let tail := match d.digits.drop 1 with
      | [] => ""
      | rest => "." ++ text rest
    text (d.digits.take 1) ++ tail ++ s!"e{d.exponent}"
  else if d.exponent < 0 then
    "0." ++ text (List.replicate (-d.exponent - 1).toNat 0 ++ d.digits)
  else
    let places := d.exponent.toNat + 1
    let whole := d.digits.take places ++ List.replicate (places - d.digits.length) 0
    let rest := d.digits.drop places
    text whole ++ "." ++ text (if rest.isEmpty then [0] else rest)

end Digits

/-- The text of the number with this bit pattern. -/
def BinaryFormat.render (f : BinaryFormat) (pattern : Nat) : String :=
  let sign := if f.isNegative pattern then "-" else ""
  let biased := f.biasedExponent pattern
  let fraction := f.fraction pattern
  if biased + 1 == Nat.pow 2 f.exponentBits then
    if fraction == 0 then sign ++ "inf" else "NaN"
  else if biased == 0 && fraction == 0 then sign ++ "0.0"
  else sign ++ (f.shortestDigits pattern).render

end BinaryStream.Decimal
