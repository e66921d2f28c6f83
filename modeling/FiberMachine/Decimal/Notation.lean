import FiberMachine.Decimal.Shortest

/-!
# Written decimals

A double is written with the digits of its shortest decimal, either positionally or as
`d.ddde<exponent>`. A `FloatFormat` says which exponents are positional, whether a whole number
keeps a point, and how the numbers that are not finite are named.
-/

namespace FiberMachine

/-- The choices that a way of writing doubles makes. -/
structure FloatFormat where
  /-- Numbers are positional from this exponent of the leading digit ... -/
  lowest : Int
  /-- ... up to this one, which is written with an exponent. -/
  highest : Int
  /-- Whether a positional whole number ends in `.0`. -/
  pointZero : Bool
  nan : String
  infinity : String
  negativeInfinity : String

namespace Decimal

/-- The digits of the coefficient. -/
def digits (d : Decimal) : String := toString d.coefficient

/-- The exponent of the leading digit. -/
def leading (d : Decimal) : Int := d.exponent + d.digits.length - 1

/-- `n` zeros. -/
def zeros (n : Nat) : String := "".pushn '0' n

/-- Positional notation. -/
def positional (d : Decimal) (pointZero : Bool) : String :=
  let ds := d.digits
  if 0 ≤ d.exponent then
    ds ++ zeros d.exponent.toNat ++ (if pointZero then ".0" else "")
  else
    let places := (-d.exponent).toNat
    if places < ds.length then
      let whole := ds.length - places
      String.ofList (ds.toList.take whole) ++ "." ++ String.ofList (ds.toList.drop whole)
    else
      "0." ++ zeros (places - ds.length) ++ ds

/-- One digit, the others after a point if there are any, and the exponent. -/
def scientific (d : Decimal) : String :=
  match d.digits.toList with
  | [] => ""
  | [c] => s!"{c}e{d.leading}"
  | c :: cs => s!"{c}.{String.ofList cs}e{d.leading}"

end Decimal

/-- A double in the given format. -/
def FloatFormat.write (f : FloatFormat) (x : Binary64) : String :=
  if x.isNaN then f.nan
  else if !x.isFinite then (if x.isNegative then f.negativeInfinity else f.infinity)
  else
    let sign := if x.isNegative then "-" else ""
    if x.isZero then sign ++ (if f.pointZero then "0.0" else "0")
    else
      let d := Decimal.shortest x.magnitude
      if f.lowest ≤ d.leading && d.leading < f.highest then sign ++ d.positional f.pointZero
      else sign ++ d.scientific

end FiberMachine
