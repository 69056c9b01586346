import LayeredConfig.Decimal.Numeral
import LayeredConfig.Template.Item

/-!
# Numbers in templates

Two items meet as numbers after they are brought to one kind: whole numbers stay
whole, a boolean is one or zero, and next to a float everything becomes a float.

A whole number is held in a word: a natural in 64 or else 128 bits, an integer in
64 or else 128 bits of which one is the sign.  Next to a float it keeps its value
exactly if the nearest float leads back to it, where what is beyond the word counts
as the largest number in it.

* `Operands` are two items of one kind, found by `operands?`;
* `wholeItem?` confines results to 128 bits;
* `numberOrder` orders two numbers by their values;
* `remainder` and `floorTowards` divide floats, exactly where the quotient is
  whole.
-/

namespace LayeredConfig.Template

/-- Whether an integer has 128 bits. -/
def fits (i : Int) : Bool :=
  decide (-Int.pow 2 127 ≤ i ∧ i < Int.pow 2 127)

/-- An integer as an item, if it fits. -/
def wholeItem? (i : Int) : Option Item :=
  if fits i then some (.int i) else none

/-- The float nearest to an integer. -/
def nearestFloat (i : Int) : Float :=
  Decimal.ofDecimal (decide (i < 0)) i.natAbs 0

/-- The integer that a finite float has before its point. -/
def wholePart (x : Float) : Int :=
  let m := Decimal.parts x
  Decimal.signed (Decimal.isNegative x)
    (if 0 ≤ m.exponent then m.mantissa * Nat.pow 2 m.exponent.toNat
      else m.mantissa / Nat.pow 2 (-m.exponent).toNat)

/-- The integer between two bounds that comes closest to what a float has before
its point.  It is zero for what is not a number. -/
def truncatedTo (low high : Int) (x : Float) : Int :=
  if x.isNaN then 0
  else if x.isInf then (if Decimal.isNegative x then low else high)
  else max low (min high (wholePart x))

/-- The integer that a float has before its point, confined to 128 bits. -/
def truncated (x : Float) : Int :=
  truncatedTo (-Int.pow 2 127) (Int.pow 2 127 - 1) x

/-- The integer that a float is, if it is one of 64 bits.  The float next above
those integers counts as the largest of them. -/
def wholeFloat? (x : Float) : Option Int :=
  let i := truncatedTo (-Int.pow 2 63) (Int.pow 2 63 - 1) x
  if nearestFloat i == x then some i else none

/-- The float nearest to an integer between two bounds, if the integer is what the
float has before its point between these bounds. -/
def exactFloat? (low high i : Int) : Option Float :=
  let x := nearestFloat i
  if truncatedTo low high x = i then some x else none

/-- A natural as a float that keeps its value. -/
def naturalFloat? (n : Nat) : Option Float :=
  exactFloat? 0 (if n < Nat.pow 2 64 then Int.pow 2 64 - 1 else Int.pow 2 128 - 1) n

/-- An integer as a float that keeps its value. -/
def integerFloat? (i : Int) : Option Float :=
  if Decimal.isInt64 i then exactFloat? (-Int.pow 2 63) (Int.pow 2 63 - 1) i
  else exactFloat? (-Int.pow 2 127) (Int.pow 2 127 - 1) i

namespace Item

/-- An item as a float.  Where `exact` is asked for, a whole number must keep its
value. -/
def toFloat? (exact : Bool) : Item → Option Float
  | bool b => some (if b then 1 else 0)
  | natural n => if exact then naturalFloat? n else some (nearestFloat n)
  | int i => if exact then integerFloat? i else some (nearestFloat i)
  | float x => some x
  | _ => none

/-- An item as a whole number. -/
def toWhole? : Item → Option Int
  | bool b => some (if b then 1 else 0)
  | natural n => if fits n then some n else none
  | int i => some i
  | float x => wholeFloat? x
  | _ => none

/-- An item as a whole number of 64 bits. -/
def toInt64? (item : Item) : Option Int :=
  item.toWhole?.bind fun i => if Decimal.isInt64 i then some i else none

/-- An item as a count of 64 bits. -/
def toCount? (item : Item) : Option Nat :=
  item.toWhole?.bind fun i => if 0 ≤ i ∧ i < Int.pow 2 64 then some i.toNat else none

end Item

/-- Two items of one kind. -/
inductive Operands where
  | whole (a b : Int)
  | float (a b : Float)
  | text (a b : String)

/-- The integer of 128 bits that agrees with a natural in all of them. -/
def wrapped (n : Nat) : Int :=
  (n : Int).bmod (Nat.pow 2 128)

/-- Two items brought to one kind.  Two naturals of more than 64 bits are taken for
the integers that have the same bits. -/
def operands? (exact : Bool) : Item → Item → Option Operands
  | .text a, .text b => some (.text a b)
  | .float a, b => (b.toFloat? exact).map (.float a ·)
  | a, .float b => (a.toFloat? exact).map (.float · b)
  | a, b =>
    match a, b with
    | .natural m, .natural n =>
      if Nat.pow 2 64 ≤ m ∧ Nat.pow 2 64 ≤ n then some (.whole (wrapped m) (wrapped n))
      else if fits m && fits n then some (.whole m n)
      else none
    | a, b => do
      let i ← a.toWhole?
      let j ← b.toWhole?
      some (.whole i j)

/-- The float without what stands behind its point. -/
def truncate (x : Float) : Float :=
  if x < 0 then x.ceil else x.floor

/-- The mantissa of a magnitude, counted in units of a smaller power of two. -/
def inUnits (m : Decimal.Magnitude) (exponent : Int) : Nat :=
  m.mantissa * Nat.pow 2 (m.exponent - exponent).toNat

/-- What is left of `x` when `y` is taken off it as often as it goes into it.  It
has the sign of `x` and is exact. -/
def remainder (x y : Float) : Float :=
  if !x.isFinite || y.isNaN || y == 0 then Decimal.notANumber
  else if y.isInf then x
  else
    let a := Decimal.parts x
    let b := Decimal.parts y
    let exponent := min a.exponent b.exponent
    let rest := inUnits a exponent % inUnits b exponent
    let (num, den) := Decimal.scaleBinary rest 1 exponent
    let bits := if rest = 0 then 0 else Decimal.nearestBits num den
    Float.ofBits (UInt64.ofNat (bits + if Decimal.isNegative x then Nat.pow 2 63 else 0))

/-- The quotient that leaves a remainder which is not negative. -/
def floorTowards (x y : Float) : Float :=
  let quotient := truncate (x / y)
  if remainder x y < 0 then (if 0 < y then quotient - 1 else quotient + 1) else quotient

/-- A number that orders floats by their bit patterns, the negative ones downwards. -/
def floatRank (x : Float) : Int :=
  let bits := x.toBits.toNat
  if bits < Nat.pow 2 63 then bits else -((bits - Nat.pow 2 63 : Nat) : Int) - 1

/-- The order of two floats.  What is not a number stands beyond the infinity of
its sign. -/
def floatOrder (x y : Float) : Ordering :=
  if x < y then .lt
  else if y < x then .gt
  else if x == y then .eq
  else compare (floatRank x) (floatRank y)

/-- The order of an integer and a float by their exact values. -/
def wholeFloatOrder (i : Int) (x : Float) : Ordering :=
  if !x.isFinite then floatOrder (nearestFloat i) x
  else
    let m := Decimal.parts x
    let (num, den) := Decimal.scaleBinary m.mantissa 1 m.exponent
    compare (i * den) (Decimal.signed (Decimal.isNegative x) num)

/-- The integer that a whole number is. -/
def Item.integer? : Item → Option Int
  | .natural n => some n
  | .int i => some i
  | _ => none

/-- The order of two numbers by their exact values. -/
def numberOrder (a b : Item) : Ordering :=
  match a, b with
  | .float x, .float y => floatOrder x y
  | .float x, b => ((b.integer?.map (wholeFloatOrder · x)).getD .eq).swap
  | a, .float y => (a.integer?.map (wholeFloatOrder · y)).getD .eq
  | a, b => compare (a.integer?.getD 0) (b.integer?.getD 0)

end LayeredConfig.Template
