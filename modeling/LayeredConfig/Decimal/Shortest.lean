import LayeredConfig.Decimal.Binary64

/-!
# The shortest decimal that reads back

Every real number between the two halfway points around a float rounds to that
float.  Among the decimals in that interval the coarsest ones have the fewest
digits; of several on the coarsest grid the nearest to the float is taken, and
of two equally near the one with an even last digit.

* `Interval` is the set of reals that round to a magnitude, over a common
  denominator;
* `shortest` walks from a grid above the magnitude towards finer grids and
  stops at the first that meets the interval.
-/

namespace LayeredConfig.Decimal

/-- A decimal `digits · 10 ^ exponent`. -/
structure Scientific where
  digits : Nat
  exponent : Int
  deriving DecidableEq, Repr, Inhabited

/-- The reals that round to a float: everything between `low` and `high`, each
over `unit`, where `value` over `unit` is the float itself.  The two ends belong
to the interval exactly if `closed`. -/
structure Interval where
  low : Nat
  value : Nat
  high : Nat
  unit : Nat
  closed : Bool
  deriving Repr

/-- The reals that round to `m`.  Below a power of two the next float is only
half as far away, except at the bottom of the range. -/
def Magnitude.interval (m : Magnitude) : Interval :=
  let (num, den) := scaleBinary m.mantissa 4 m.exponent
  let step := num / m.mantissa
  let below := if m.mantissa = Nat.pow 2 52 ∧ leastExponent < m.exponent then step else 2 * step
  { low := 4 * num - below
    value := 4 * num
    high := 4 * num + 2 * step
    unit := den
    closed := m.mantissa % 2 = 0 }

/-- Whether `point`, counted in the `factor`-th part of the unit, lies in the
interval. -/
def Interval.has (i : Interval) (factor point : Nat) : Bool :=
  if i.closed then i.low * factor ≤ point && point ≤ i.high * factor
  else i.low * factor < point && point < i.high * factor

/-- The points of the grid `10 ^ exponent` next to the magnitude that lie in the
interval: the nearest of them, if there is any. -/
def Interval.onGrid? (i : Interval) (exponent : Int) : Option Scientific :=
  let (grid, factor) :=
    if 0 ≤ exponent then (i.unit * Nat.pow 10 exponent.toNat, 1)
    else (i.unit, Nat.pow 10 (-exponent).toNat)
  let value := i.value * factor
  let floor := value / grid
  let below := i.has factor (floor * grid)
  let above := i.has factor ((floor + 1) * grid)
  match below, above with
  | false, false => none
  | true, false => some ⟨floor, exponent⟩
  | false, true => some ⟨floor + 1, exponent⟩
  | true, true => some ⟨roundHalfEven value grid, exponent⟩

/-- The first grid that meets the interval, from `exponent` downwards through
`steps` grids. -/
def Interval.coarsest (i : Interval) : Nat → Int → Scientific
  | 0, exponent => ⟨0, exponent⟩
  | steps + 1, exponent =>
    match i.onGrid? exponent with
    | some found => found
    | none => i.coarsest steps (exponent - 1)

/-- The decimal with the fewest digits that reads back as the finite positive
magnitude `m`.  Seventeen digits always suffice, and the first grid is coarser
than the magnitude. -/
def Magnitude.shortest (m : Magnitude) : Scientific :=
  let top : Int := ((m.mantissa.log2 : Int) + m.exponent) * 30103 / 100000 + 2
  m.interval.coarsest 20 top

end LayeredConfig.Decimal
