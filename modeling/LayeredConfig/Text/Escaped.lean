/-!
# Escaped strings

A string inside JSON stands between double quotes.  Quotes, backslashes and the
control characters below the space are escaped, everything else is written as
it is, and the short escapes are used where one exists.

* `escape` writes the characters between the quotes, `quoted` the whole;
* `hexDigit` and `hexValue?` are the digits of a four-digit escape.
-/

namespace LayeredConfig.Text

/-- A digit from zero to fifteen, in lower case. -/
def hexDigit (n : Nat) : Char :=
  Nat.digitChar n

/-- The value of a hexadecimal digit in either case. -/
def hexValue? (c : Char) : Option Nat :=
  if c.isDigit then some (c.toNat - '0'.toNat)
  else if 'a' ≤ c ∧ c ≤ 'f' then some (c.toNat - 'a'.toNat + 10)
  else if 'A' ≤ c ∧ c ≤ 'F' then some (c.toNat - 'A'.toNat + 10)
  else none

/-- The written form of one character. -/
def escapeChar (c : Char) : List Char :=
  if c = '"' then ['\\', '"']
  else if c = '\\' then ['\\', '\\']
  else if c = '\n' then ['\\', 'n']
  else if c = '\r' then ['\\', 'r']
  else if c = '\t' then ['\\', 't']
  else if c = '\x08' then ['\\', 'b']
  else if c = '\x0c' then ['\\', 'f']
  else if c.toNat < 0x20 then
    ['\\', 'u', '0', '0', hexDigit (c.toNat / 16), hexDigit (c.toNat % 16)]
  else [c]

/-- The characters of a string as they stand between the quotes. -/
def escape (cs : List Char) : List Char :=
  cs.flatMap escapeChar

/-- A string between its quotes. -/
def quoted (text : String) : List Char :=
  '"' :: escape text.toList ++ ['"']

end LayeredConfig.Text
