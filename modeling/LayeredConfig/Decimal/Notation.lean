import LayeredConfig.Decimal.Digits
import LayeredConfig.Decimal.Shortest

/-!
# Floats as text

The digits of a float are its shortest ones; how they are laid out is one
record, `FloatLayout`.  Between the two positional bounds a float is written
with at least one digit on either side of the point, beyond them as a mantissa
with an exponent.  Trees and JSON share `FloatLayout.tree`; YAML differs in its
exponent and in its words for what is not finite.
-/

namespace LayeredConfig.Decimal

/-- How the digits of a float are laid out. -/
structure FloatLayout where
  /-- The least exponent of ten that is written positionally. -/
  leastPositional : Int
  /-- The largest exponent of ten that is written positionally. -/
  mostPositional : Int
  /-- Whether an exponent that is not negative carries a plus sign. -/
  plusExponent : Bool
  /-- The text of a float that is not a number. -/
  notANumber : String
  /-- The text of positive infinity; the negative one has a minus in front. -/
  infinity : String

/-- Floats in trees: positional from `1e-5` up to below `1e16`. -/
def FloatLayout.tree : FloatLayout :=
  { leastPositional := -5
    mostPositional := 15
    plusExponent := true
    notANumber := "NaN"
    infinity := "inf" }

/-- Floats in YAML documents. -/
def FloatLayout.yaml : FloatLayout :=
  { FloatLayout.tree with
    plusExponent := false
    notANumber := ".nan"
    infinity := ".inf" }

/-- A decimal without sign.  `point` is the exponent of ten of the first digit. -/
def FloatLayout.scientificText (layout : FloatLayout) (s : Scientific) : List Char :=
  let digits := naturalText s.digits
  let point : Int := s.exponent + (digits.length - 1 : Nat)
  if point < layout.leastPositional ∨ layout.mostPositional < point then
    let fraction := if digits.length ≤ 1 then [] else '.' :: digits.drop 1
    let sign := if 0 ≤ point ∧ layout.plusExponent then ['+'] else []
    digits.take 1 ++ fraction ++ ['e'] ++ sign ++ integerText point
  else if point < 0 then
    ['0', '.'] ++ List.replicate (-point - 1).toNat '0' ++ digits
  else if 0 ≤ s.exponent then
    digits ++ List.replicate s.exponent.toNat '0' ++ ['.', '0']
  else
    digits.take (point.toNat + 1) ++ ['.'] ++ digits.drop (point.toNat + 1)

/-- The text of a float. -/
def FloatLayout.text (layout : FloatLayout) (x : Float) : String :=
  if x.isNaN then layout.notANumber
  else
    let sign := if isNegative x then "-" else ""
    if x.isInf then sign ++ layout.infinity
    else
      let m := parts x
      if m.mantissa = 0 then sign ++ "0.0"
      else sign ++ String.ofList (layout.scientificText m.shortest)

end LayeredConfig.Decimal
