/-!
# Decimal digits

Whole numbers as runs of decimal digits, most significant first.

* `naturalText` and `integerText` write a number without leading zeros;
* `naturalValue` reads a run of digits;
* `digitRun` cuts the longest run of digits off a text.
-/

namespace LayeredConfig.Decimal

/-- A natural number in decimal digits. -/
def naturalText (n : Nat) : List Char :=
  Nat.toDigits 10 n

/-- An integer in decimal digits, with a minus sign when it is negative. -/
def integerText (i : Int) : List Char :=
  if i < 0 then '-' :: naturalText i.natAbs else naturalText i.natAbs

/-- The number that a run of decimal digits stands for. -/
def naturalValue (digits : List Char) : Nat :=
  Nat.ofDigitChars 10 digits 0

/-- The longest run of decimal digits at the front, and the rest. -/
def digitRun (cs : List Char) : List Char × List Char :=
  (cs.takeWhile Char.isDigit, cs.dropWhile Char.isDigit)

/-- Reading back the digits of a number gives the number. -/
theorem naturalValue_naturalText (n : Nat) : naturalValue (naturalText n) = n :=
  Nat.ofDigitChars_ten_toDigits

/-- An integer in decimal digits is its usual numeral. -/
theorem ofList_integerText (i : Int) : String.ofList (integerText i) = toString i := by
  cases i with
  | ofNat n => rfl
  | negSucc n =>
      have hsign : integerText (Int.negSucc n) = ['-'] ++ naturalText (n + 1) :=
        if_pos (Int.negSucc_lt_zero n)
      rw [hsign, String.ofList_append]
      rfl

end LayeredConfig.Decimal
