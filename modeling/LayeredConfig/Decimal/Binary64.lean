/-!
# Binary fractions of 53 bits

A finite 64-bit float is `mantissa · 2 ^ exponent`.  This file takes a float
apart into these two numbers and finds, for a decimal fraction, the float
nearest to it.  All arithmetic is exact; rounding happens once, at the end.

* `parts` takes a finite float apart;
* `nearestBits` rounds a positive fraction, a tie going to the even mantissa;
* `ofDecimal` is the float nearest to `digits · 10 ^ exponent`.
-/

namespace LayeredConfig.Decimal

/-- The magnitude `mantissa · 2 ^ exponent` of a finite float. -/
structure Magnitude where
  mantissa : Nat
  exponent : Int
  deriving DecidableEq, Repr

/-- The least binary exponent: floats are whole multiples of `2 ^ leastExponent`. -/
def leastExponent : Int := -1074

/-- The magnitude of a finite float.  The lowest 52 bits are the fraction, the
next 11 the biased exponent; exponent zero stands for the subnormal numbers. -/
def parts (x : Float) : Magnitude :=
  let bits := x.toBits.toNat
  let fraction := bits % Nat.pow 2 52
  let biased := bits / Nat.pow 2 52 % Nat.pow 2 11
  if biased = 0 then ⟨fraction, leastExponent⟩
  else ⟨Nat.pow 2 52 + fraction, leastExponent + (biased - 1 : Nat)⟩

/-- The sign bit of a float. -/
def isNegative (x : Float) : Bool :=
  x.toBits.toNat / Nat.pow 2 63 == 1

/-- The quotient `num / den` to the nearest whole number, a tie to the even one. -/
def roundHalfEven (num den : Nat) : Nat :=
  let floor := num / den
  let twice := 2 * (num % den)
  if twice < den then floor
  else if den < twice then floor + 1
  else if floor % 2 = 0 then floor else floor + 1

/-- `2 ^ e` times the fraction `num / den`, as a fraction. -/
def scaleBinary (num den : Nat) (e : Int) : Nat × Nat :=
  if 0 ≤ e then (num * Nat.pow 2 e.toNat, den) else (num, den * Nat.pow 2 (-e).toNat)

/-- The bits of the float nearest to the positive fraction `num / den`.  The
binary exponent is the least one under which the rounded mantissa stays within
53 bits, and no less than `leastExponent`.  Mantissa and exponent overlap in
the bit pattern, so a mantissa that rounds up to `2 ^ 53` carries into the
exponent by plain addition; a carry past the largest exponent is infinity. -/
def nearestBits (num den : Nat) : Nat :=
  let guess : Int := (num.log2 : Int) - (den.log2 : Int) - 52
  let (n, d) := scaleBinary num den (-guess)
  let exponent := max leastExponent (if n / d < Nat.pow 2 52 then guess - 1 else guess)
  let (n, d) := scaleBinary num den (-exponent)
  let bits := (exponent - leastExponent).toNat * Nat.pow 2 52 + roundHalfEven n d
  min bits (2047 * Nat.pow 2 52)

/-- The float nearest to `digits · 10 ^ exponent`, with the sign given.
Magnitudes beyond every float are infinite, those below half the least float
are zero; both are decided by the count of digits before any power is formed. -/
def ofDecimal (negative : Bool) (digits : Nat) (exponent : Int) : Float :=
  let size : Int := (Nat.toDigits 10 digits).length + exponent
  let bits :=
    if digits = 0 ∨ size < -330 then 0
    else if 330 < size then 2047 * Nat.pow 2 52
    else if 0 ≤ exponent then nearestBits (digits * Nat.pow 10 exponent.toNat) 1
    else nearestBits digits (Nat.pow 10 (-exponent).toNat)
  Float.ofBits (UInt64.ofNat (bits + if negative then Nat.pow 2 63 else 0))

end LayeredConfig.Decimal
