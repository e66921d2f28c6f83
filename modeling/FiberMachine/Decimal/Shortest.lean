import FiberMachine.Binary64

/-!
# Shortest decimals

The real numbers that round to a double form an interval around it, whose ends belong to it when
the significand is even. Among the decimals in that interval, `Decimal.shortest` picks one with the
fewest digits, of those the nearest to the double, and of two equally near ones the larger.

All comparisons are between natural numbers: a positive rational is a numerator over the
denominator that the interval's points share.
-/

namespace FiberMachine

/-- The number `coefficient * 10 ^ exponent`. -/
structure Decimal where
  coefficient : Nat
  exponent : Int
  deriving DecidableEq

namespace Decimal

/-- A double and the ends of its rounding interval, over one denominator. -/
structure Interval where
  low : Nat
  middle : Nat
  high : Nat
  denominator : Nat
  closed : Bool

/-- The rounding interval of a finite nonzero number. Its ends lie half-way to the neighbours. -/
def Interval.around (m : Binary64.Magnitude) : Interval :=
  let up := Nat.pow 2 (m.exponent - 2).toNat
  let middle := 4 * m.significand
  { low := (middle - if m.gapHalved then 1 else 2) * up
    middle := middle * up
    high := (middle + 2) * up
    denominator := Nat.pow 2 (2 - m.exponent).toNat
    closed := m.significand % 2 = 0 }

namespace Interval

/-- Both sides of a comparison between the interval's points and multiples of `10 ^ grid`: the
factor of a multiple and the factor of a point. -/
def factors (i : Interval) (grid : Int) : Nat × Nat :=
  (Nat.pow 10 grid.toNat * i.denominator, Nat.pow 10 (-grid).toNat)

/-- Whether `c * 10 ^ grid` lies in the interval. -/
def contains (i : Interval) (c : Nat) (grid : Int) : Bool :=
  let (multiple, point) := i.factors grid
  if i.closed then
    i.low * point ≤ c * multiple && c * multiple ≤ i.high * point
  else
    i.low * point < c * multiple && c * multiple < i.high * point

/-- The multiple of `10 ^ grid` in the interval that is nearest to the middle. -/
def nearest? (i : Interval) (grid : Int) : Option Nat :=
  let (multiple, point) := i.factors grid
  let below := i.middle * point / multiple
  match i.contains below grid, i.contains (below + 1) grid with
  | true, true =>
    if i.middle * point - below * multiple < (below + 1) * multiple - i.middle * point then
      some below
    else
      some (below + 1)
  | true, false => some below
  | false, true => some (below + 1)
  | false, false => none

/-- The exponent of the leading decimal digit of `middle / denominator`, found by scaling with at
most `n` factors of ten, where `e` factors have been taken out already. -/
def leadingExponent (middle denominator : Nat) (e : Int) : Nat → Int
  | 0 => e
  | n + 1 =>
    if middle < denominator then leadingExponent (middle * 10) denominator (e - 1) n
    else if middle < 10 * denominator then e
    else leadingExponent middle (denominator * 10) (e + 1) n

/-- The first hit on the grids `10 ^ grid`, `10 ^ (grid - 1)`, ... -/
def firstHit (i : Interval) (grid : Int) : Nat → Decimal
  | 0 => ⟨i.middle / i.denominator, 0⟩
  | n + 1 =>
    match i.nearest? grid with
    | some c => ⟨c, grid⟩
    | none => firstHit i (grid - 1) n

end Interval

/-- The same number without trailing zeros in the coefficient, of which at most `n` are dropped. -/
def trim (d : Decimal) : Nat → Decimal
  | 0 => d
  | n + 1 =>
    if d.coefficient % 10 = 0 && d.coefficient ≠ 0 then
      trim ⟨d.coefficient / 10, d.exponent + 1⟩ n
    else d

/-- The shortest decimal that reads back as the given magnitude, which must not be zero. Seventeen
digits always suffice. -/
def shortest (m : Binary64.Magnitude) : Decimal :=
  let i := Interval.around m
  let leading := Interval.leadingExponent i.middle i.denominator 0 400
  (i.firstHit leading 18).trim 18

end Decimal

end FiberMachine
