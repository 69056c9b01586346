import LayeredConfig.Decimal.Numeral
import LayeredConfig.Tree.Value

/-!
# Numbers in JSON

A numeral without point and exponent is an integer if it is a signed 64-bit
one and not minus zero, and a float otherwise.

A float is computed as the format's readers commonly do it, not as the nearest
float to the numeral: the leading digits that fit an unsigned 64-bit integer are
the significand, the significand is rounded to a float, and one multiplication
or division by a power of ten follows.  Magnitudes that overflow are refused.
-/

namespace LayeredConfig.Json

/-- The bound that a significand stays below. -/
def significandBound : Nat := Nat.pow 2 64

/-- Appends digits to a significand for as long as it stays within its bound,
and counts those that were taken. -/
def fill (significand : Nat) : List Char → Nat × Nat
  | [] => (significand, 0)
  | c :: rest =>
    let next := significand * 10 + (c.toNat - '0'.toNat)
    if next < significandBound then
      let (s, taken) := fill next rest
      (s, taken + 1)
    else (significand, 0)

/-- The float nearest to a power of ten. -/
def tenTo (e : Nat) : Float :=
  Decimal.ofDecimal false 1 e

/-- The magnitude `significand · 10 ^ exponent`, rounded after each operation.
Powers of ten reach up to `10 ^ 308`; a smaller magnitude takes two divisions. -/
def scaled? (significand : Nat) (exponent : Int) : Option Float :=
  let f := Decimal.ofDecimal false significand 0
  if significand = 0 then some f
  else if 308 < exponent then none
  else if 0 ≤ exponent then
    let product := f * tenTo exponent.toNat
    if product.isInf then none else some product
  else
    let below := (-exponent).toNat
    if below ≤ 308 then some (f / tenTo below)
    else if below ≤ 616 then some (f / tenTo 308 / tenTo (below - 308))
    else some (Decimal.ofDecimal false 0 0)

/-- A numeral cut into its parts.  `fraction` and `exponent` are absent where the
numeral does not have them. -/
structure Numeral where
  negative : Bool
  whole : List Char
  fraction : Option (List Char)
  exponent : Option Int
  deriving DecidableEq, Repr

/-- The float that a numeral stands for, if it does not overflow. -/
def Numeral.float? (n : Numeral) : Option Float :=
  let (significand, taken) := fill 0 n.whole
  let skipped := n.whole.length - taken
  let (significand, after) := fill significand (n.fraction.getD [])
  let exponent : Int := (skipped : Int) - after + n.exponent.getD 0
  (scaled? significand exponent).map fun x => if n.negative then -x else x

/-- The value of a numeral: an integer where the text has neither point nor
exponent and the number is in range, else a float. -/
def Numeral.value? (n : Numeral) : Option Value :=
  let whole := Decimal.naturalValue n.whole
  let integer :=
    if n.fraction.isSome || n.exponent.isSome || (n.negative && whole == 0) then none
    else Decimal.int64? (Decimal.signed n.negative whole)
  match integer with
  | some i => some (.int i)
  | none => n.float?.map .float

/-- Cuts the exponent part off a text. -/
def cutExponent : List Char → Option (Option Int × List Char)
  | [] => some (none, [])
  | c :: rest =>
    if c = 'e' ∨ c = 'E' then
      let (negative, rest) := Decimal.cutSign rest
      let (digits, rest) := Decimal.digitRun rest
      if digits.isEmpty then none
      else some (some (Decimal.signed negative (Decimal.naturalValue digits)), rest)
    else some (none, c :: rest)

/-- Cuts the fraction part off a text. -/
def cutFraction : List Char → Option (Option (List Char) × List Char)
  | '.' :: rest =>
    let (digits, rest) := Decimal.digitRun rest
    if digits.isEmpty then none else some (some digits, rest)
  | cs => some (none, cs)

/-- Cuts a numeral off a text.  The whole part has no superfluous zero in front. -/
def cutNumeral (cs : List Char) : Option (Numeral × List Char) := do
  let (negative, cs) := match cs with
    | '-' :: rest => (true, rest)
    | cs => (false, cs)
  let (whole, rest) := Decimal.digitRun cs
  if whole.isEmpty || (whole.head? == some '0' && 1 < whole.length) then none
  else
    let (fraction, rest) ← cutFraction rest
    let (exponent, rest) ← cutExponent rest
    some (⟨negative, whole, fraction, exponent⟩, rest)

end LayeredConfig.Json
