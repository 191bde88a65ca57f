import CanonicalWire.Text

/-!
# Decimals

A decimal is an integer mantissa with a scale: it denotes `mantissa / 10 ^ scale`, and a negative scale
multiplies. Different pairs may denote one number.
-/

namespace CanonicalWire

structure Decimal where
  mantissa : Int
  scale : Int
deriving DecidableEq, Repr

namespace Decimal

def ofInt (m : Int) : Decimal := ⟨m, 0⟩

/-- Ten to the power of `e`, and one where `e` is negative. -/
def tenTo (e : Int) : Nat := Nat.pow 10 e.toNat

/-- The number has no fractional part. -/
def isInteger (d : Decimal) : Bool := d.scale ≤ 0 || d.mantissa % tenTo d.scale == 0

/-- The number with its fractional part cut off. -/
def truncate (d : Decimal) : Int :=
  if d.scale ≤ 0 then d.mantissa * tenTo (-d.scale) else d.mantissa.tdiv (tenTo d.scale)

/-- The decimal digits of the mantissa without its sign; zero has one. -/
def digits (d : Decimal) : List Char := (toString d.mantissa.natAbs).toList

/-- How many zeros stand between the point and the first digit of the mantissa in positional notation. -/
def leadingZeros (d : Decimal) : Nat := d.scale.toNat - d.digits.length

/-- The most such zeros that are written out. -/
def maxLeadingZeros : Nat := 5

/-- As many places as the scale says; at least one digit stands before the point. A scale that is not
positive gives no point. -/
def positional (d : Decimal) : List Char :=
  if d.scale ≤ 0 then (toString d.truncate.natAbs).toList
  else
    let places := d.scale.toNat
    let padded := List.replicate (places + 1 - d.digits.length) '0' ++ d.digits
    let whole := padded.length - places
    padded.take whole ++ '.' :: padded.drop whole

/-- All digits of the mantissa with the point behind the first, if there are more, and the power of ten
that moves the point back. -/
def scientific (d : Decimal) : List Char :=
  let fraction :=
    match d.digits.drop 1 with
    | [] => []
    | more => '.' :: more
  let exponent : Int := d.digits.length - d.scale - 1
  d.digits.take 1 ++ fraction ++ 'E' :: (toString exponent).toList

/-- Positional notation, or scientific notation where too many zeros would follow the point. -/
def text (d : Decimal) : String :=
  let sign := if d.mantissa < 0 then "-" else ""
  sign ++ String.ofList (if maxLeadingZeros < d.leadingZeros then d.scientific else d.positional)

/-- Orders decimals by the numbers that they denote. -/
def compare (a b : Decimal) : Ordering :=
  let scale := max a.scale b.scale
  Ord.compare (a.mantissa * tenTo (scale - a.scale)) (b.mantissa * tenTo (scale - b.scale))

/-- Reads positional notation, with an exponent after `e` or `E` if there is one. -/
def ofText? (s : String) : Option Decimal := do
  let cs := s.toList
  let (base, exponent) ←
    match splitFirst? 'e' cs <|> splitFirst? 'E' cs with
    | some (base, exponent) => (readInt? exponent).map fun e => (base, e)
    | none => some (cs, 0)
  let (whole, fraction) := (splitFirst? '.' base).getD (base, [])
  let mantissa ← readInt? (whole ++ fraction)
  return ⟨mantissa, fraction.length - exponent⟩

end Decimal
end CanonicalWire
