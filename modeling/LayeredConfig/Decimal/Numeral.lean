import LayeredConfig.Decimal.Digits
import LayeredConfig.Decimal.Binary64

/-!
# Numbers written by hand

The numerals that a person may write in an override: an integer is decimal
digits with an optional sign, a float also takes a point, an exponent, or one
of the words for infinity and not-a-number in any letter case.

* `integer?` reads a signed 64-bit integer;
* `float?` reads a float;
* `decimalPoint?` is the unsigned mantissa-and-exponent form alone, which the
  document formats share.
-/

namespace LayeredConfig.Decimal

/-- Whether an integer is one of the signed 64-bit integers. -/
def isInt64 (i : Int) : Bool :=
  decide (-Int.pow 2 63 ≤ i ∧ i < Int.pow 2 63)

/-- A signed 64-bit integer, if it is in range. -/
def int64? (i : Int) : Option Int64 :=
  if isInt64 i then some (Int64.ofInt i) else none

/-- Cuts an optional sign off a numeral.  The flag is set by a minus. -/
def cutSign : List Char → Bool × List Char
  | '-' :: rest => (true, rest)
  | '+' :: rest => (false, rest)
  | cs => (false, cs)

/-- A magnitude with its sign. -/
def signed (negative : Bool) (n : Nat) : Int :=
  if negative then -(n : Int) else n

/-- A signed 64-bit integer in decimal digits with an optional sign. -/
def integer? (text : String) : Option Int64 :=
  let (negative, digits) := cutSign text.toList
  if digits.isEmpty || !digits.all Char.isDigit then none
  else int64? (signed negative (naturalValue digits))

/-- An exponent part: `e` or `E`, an optional sign and at least one digit.  No
such part at all stands for exponent zero. -/
def exponentPart? : List Char → Option Int
  | [] => some 0
  | c :: rest =>
    if c = 'e' ∨ c = 'E' then
      let (negative, digits) := cutSign rest
      if digits.isEmpty || !digits.all Char.isDigit then none
      else some (signed negative (naturalValue digits))
    else none

/-- A numeral without a sign: digits with an optional point among them, of which
at least one must be there, then an optional exponent part.  The result is the
digits as one number and the exponent of ten that goes with it. -/
def decimalPoint? (cs : List Char) : Option (Nat × Int) :=
  let (whole, rest) := digitRun cs
  let (fraction, rest) :=
    match rest with
    | '.' :: rest => digitRun rest
    | rest => ([], rest)
  if whole.isEmpty && fraction.isEmpty then none
  else
    (exponentPart? rest).map fun e =>
      (naturalValue (whole ++ fraction), e - fraction.length)

/-- A word in lower-case letters. -/
def asciiLower (cs : List Char) : String :=
  String.ofList (cs.map Char.toLower)

/-- The float with a sign bit of its own and no finite value. -/
def infinite (negative : Bool) : Float :=
  Float.ofBits (UInt64.ofNat (2047 * Nat.pow 2 52 + if negative then Nat.pow 2 63 else 0))

/-- The float that is not a number. -/
def notANumber : Float :=
  Float.ofBits 0x7FF8000000000000

/-- A float in any of its written forms. -/
def float? (text : String) : Option Float :=
  let (negative, rest) := cutSign text.toList
  let word := asciiLower rest
  if word = "inf" ∨ word = "infinity" then some (infinite negative)
  else if word = "nan" then some notANumber
  else (decimalPoint? rest).map fun (digits, exponent) => ofDecimal negative digits exponent

end LayeredConfig.Decimal
