/-!
# Double-precision numbers by their bits

A `Binary64` is the 64-bit pattern of an IEEE 754 double. Patterns survive storage unchanged, the
payload of a NaN included; arithmetic and order are those of `Float`. `magnitude` gives a finite
number without its sign as the integer multiple of a power of two that it is.
-/

namespace FiberMachine

/-- A double given by its bit pattern. -/
structure Binary64 where
  bits : UInt64
  deriving DecidableEq

namespace Binary64

def zero : Binary64 := ⟨0⟩

def toFloat (x : Binary64) : Float := Float.ofBits x.bits

def ofFloat (x : Float) : Binary64 := ⟨x.toBits⟩

/-- The number with the opposite sign bit. -/
def neg (x : Binary64) : Binary64 := ⟨x.bits ^^^ ((1 : UInt64) <<< 63)⟩

def add (x y : Binary64) : Binary64 := ofFloat (x.toFloat + y.toFloat)

def sub (x y : Binary64) : Binary64 := ofFloat (x.toFloat - y.toFloat)

def mul (x y : Binary64) : Binary64 := ofFloat (x.toFloat * y.toFloat)

def div (x y : Binary64) : Binary64 := ofFloat (x.toFloat / y.toFloat)

/-- Numerical equality: the zeros are equal and a NaN equals nothing. -/
def eq (x y : Binary64) : Bool := x.toFloat == y.toFloat

def lt (x y : Binary64) : Bool := x.toFloat < y.toFloat

def le (x y : Binary64) : Bool := x.toFloat ≤ y.toFloat

/-- The sign bit. -/
def isNegative (x : Binary64) : Bool := x.bits >>> 63 == 1

/-- The 11 bits of the exponent. -/
def exponentBits (x : Binary64) : Nat := ((x.bits >>> 52) &&& 0x7ff).toNat

/-- The 52 bits after the leading bit of the significand. -/
def fractionBits (x : Binary64) : Nat := (x.bits &&& 0xfffffffffffff).toNat

/-- Infinities and NaNs have the largest exponent. -/
def isFinite (x : Binary64) : Bool := x.exponentBits ≠ 0x7ff

def isNaN (x : Binary64) : Bool := !x.isFinite && x.fractionBits ≠ 0

def isZero (x : Binary64) : Bool := x.exponentBits = 0 && x.fractionBits = 0

/-- A finite number without its sign is `significand * 2 ^ exponent`. -/
structure Magnitude where
  significand : Nat
  exponent : Int
  /-- Whether the next smaller number is only half as far away as the next larger one. -/
  gapHalved : Bool

/-- The magnitude of a finite number. -/
def magnitude (x : Binary64) : Magnitude :=
  if x.exponentBits = 0 then
    ⟨x.fractionBits, -1074, false⟩
  else
    ⟨0x10000000000000 + x.fractionBits, (x.exponentBits : Int) - 1075,
      x.fractionBits = 0 && 1 < x.exponentBits⟩

end Binary64

end FiberMachine
