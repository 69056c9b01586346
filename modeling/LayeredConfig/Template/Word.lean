import LayeredConfig.Decimal.Numeral
import LayeredConfig.Json.Reader

/-!
# The words inside a tag

Inside a tag a template is a run of words: names, numbers, quoted texts, and the
marks that stand for operators and brackets.  Names have ASCII letters only.  A
tag ends at its closing marks, but not while a bracket is open.

A numeral may have underscores among its digits, and a whole one may be written in
base two, eight or sixteen.  Quoted texts know escapes of one letter, of a code
point in base sixteen, and of a byte in base sixteen or eight.

* `cutWord` cuts one word off a text;
* `cutTag` cuts the words of a tag off, with its end.
-/

namespace LayeredConfig.Template

/-- A word. -/
inductive Word where
  | name (s : String)
  | whole (n : Nat)
  | decimal (x : Float)
  | text (s : String)
  | mark (s : String)

/-- How many brackets a word opens; it is negative for one that closes. -/
def Word.opens : Word → Int
  | mark s => if ["(", "[", "\x7b"].contains s then 1
      else if [")", "]", "\x7d"].contains s then -1
      else 0
  | _ => 0

/-- The blanks between words. -/
def isGap (c : Char) : Bool :=
  c == ' ' || c == '\t' || c == '\n' || c == '\x0c' || c == '\r'

/-- Whether a name may start with the character. -/
def startsName (c : Char) : Bool :=
  c.isAlpha || c == '_'

/-- Whether a name may go on with the character. -/
def continuesName (c : Char) : Bool :=
  c.isAlphanum || c == '_'

/-- The marks of two characters. -/
def doubleMarks : List String := ["//", "**", "==", "!=", ">=", "<="]

/-- The marks of one character. -/
def singleMarks : List Char := "+-*/%~.,:|=<>()[]\x7b\x7d".toList

/-- A quoted text as it is written, cut off from behind its opening quote. -/
def cutQuoted (quote : Char) : List Char → Option (List Char × List Char)
  | [] => none
  | c :: rest =>
    if c = quote then some ([], rest)
    else if c = '\\' then
      match rest with
      | [] => none
      | d :: rest => (cutQuoted quote rest).map fun (s, rest) => (c :: d :: s, rest)
    else (cutQuoted quote rest).map fun (s, rest) => (c :: s, rest)

/-- Whether a character is an octal digit. -/
def isOctal (c : Char) : Bool :=
  '0' ≤ c && c ≤ '7'

/-- Cuts off the character that two hexadecimal digits stand for. -/
def cutHexByte : List Char → Option (Char × List Char)
  | c :: d :: rest => do
    let high ← Text.hexValue? c
    let low ← Text.hexValue? d
    some (Char.ofNat (16 * high + low), rest)
  | _ => none

/-- Cuts off the character that up to three octal digits stand for, which must be
one of the first 256. -/
def cutOctalByte (cs : List Char) : Option (Char × List Char) :=
  let digits := (cs.take 3).takeWhile isOctal
  let n := Nat.ofDigitChars 8 digits 0
  if n < 256 then some (Char.ofNat n, cs.drop digits.length) else none

/-- A quoted text as it is meant.  A backslash in front of a character without a
meaning of its own stands for itself.  Every character takes a step of `bound`. -/
def unescape : Nat → List Char → Option (List Char)
  | 0, _ => none
  | _ + 1, [] => some []
  | bound + 1, '\\' :: c :: rest =>
    if c = 'u' then do
      let (d, rest) ← Json.unicodeEscape rest
      (unescape bound rest).map (d :: ·)
    else if c = 'x' then do
      let (d, rest) ← cutHexByte rest
      (unescape bound rest).map (d :: ·)
    else if isOctal c then do
      let (d, rest) ← cutOctalByte (c :: rest)
      (unescape bound rest).map (d :: ·)
    else
      let meant :=
        if c = '\'' then ['\''] else ((Json.shortEscape? c).map ([·])).getD ['\\', c]
      (unescape bound rest).map (meant ++ ·)
  | bound + 1, c :: rest => (unescape bound rest).map (c :: ·)

/-! ## Numbers -/

/-- The parts of a numeral, in the order in which they come. -/
inductive NumeralPart where
  | whole | fraction | exponent | power
  deriving DecidableEq

/-- Whether the text behind a point goes on as a name and not as an exponent. -/
def startsAttribute : List Char → Bool
  | [] => false
  | c :: rest =>
    startsName c &&
      !((c == 'e' || c == 'E') &&
        match rest with
        | '+' :: d :: _ | '-' :: d :: _ => d.isDigit
        | d :: _ => d.isDigit
        | [] => false)

/-- The part that a numeral is in after one more character, if that character
belongs to it.  A point that an attribute follows does not. -/
def NumeralPart.next? (part : NumeralPart) (c : Char) (rest : List Char) : Option NumeralPart :=
  if c.isDigit then some (if part = exponent then power else part)
  else if c = '_' then some part
  else if c = '.' then
    if part = whole && !startsAttribute rest then some fraction else none
  else if c = 'e' ∨ c = 'E' then
    if part = whole ∨ part = fraction then some exponent else none
  else if c = '+' ∨ c = '-' then
    if part = exponent then some power else none
  else none

/-- Cuts off what belongs to a numeral, and tells its last part. -/
def cutNumeral (part : NumeralPart) : List Char → NumeralPart × List Char × List Char
  | [] => (part, [], [])
  | c :: rest =>
    match part.next? c rest with
    | none => (part, [], c :: rest)
    | some next =>
      let (last, taken, rest) := cutNumeral next rest
      (last, c :: taken, rest)

/-- A numeral without the underscores in it.  The last character must not be one. -/
def ungrouped? (cs : List Char) : Option (List Char) :=
  if cs.getLast? = some '_' then none else some (cs.filter (· ≠ '_'))

/-- A natural of at most 128 bits as a word. -/
def naturalWord? (n : Nat) : Option Word :=
  if n < Nat.pow 2 128 then some (.whole n) else none

/-- The base that a numeral with a letter in its second place is written in. -/
def base? : List Char → Option Nat
  | '0' :: c :: _ =>
    if c = 'x' ∨ c = 'X' then some 16
    else if c = 'o' ∨ c = 'O' then some 8
    else if c = 'b' ∨ c = 'B' then some 2
    else none
  | _ => none

/-- Whether a character belongs to a numeral in a base.  A decimal digit does, also
where it is too large. -/
def belongsTo (base : Nat) (c : Char) : Bool :=
  c.isDigit || c == '_' || (base == 16 && (Text.hexValue? c).isSome)

/-- The number that digits stand for in a base. -/
def inBase? (base : Nat) (cs : List Char) : Option Nat := do
  let digits ← cs.mapM Text.hexValue?
  if digits.isEmpty || digits.any (base ≤ ·) then none
  else some (digits.foldl (fun n d => base * n + d) 0)

/-- Cuts a number off.  It is a decimal one where it has a point or an exponent;
whole numbers have at most 128 bits. -/
def cutNumber (cs : List Char) : Option (Word × List Char) :=
  match base? cs with
  | some base => do
    let cs := cs.drop 2
    let digits ← ungrouped? (cs.takeWhile (belongsTo base))
    let n ← inBase? base digits
    let word ← naturalWord? n
    some (word, cs.dropWhile (belongsTo base))
  | none => do
    let (last, taken, rest) := cutNumeral .whole cs
    let taken ← ungrouped? taken
    if last = .whole then
      (naturalWord? (Decimal.naturalValue taken)).map (·, rest)
    else
      let (digits, e) ← Decimal.decimalPoint? taken
      some (.decimal (Decimal.ofDecimal false digits e), rest)

/-! ## Words and tags -/

/-- The mark at the front. -/
def cutMark : List Char → Option (Word × List Char)
  | [] => none
  | c :: rest =>
    let double := String.ofList (c :: rest.take 1)
    if doubleMarks.contains double then some (.mark double, rest.drop 1)
    else if singleMarks.contains c then some (.mark (String.singleton c), rest)
    else none

/-- Cuts one word off. -/
def cutWord : List Char → Option (Word × List Char)
  | [] => none
  | c :: rest =>
    if c = '"' ∨ c = '\'' then do
      let (written, rest) ← cutQuoted c rest
      let meant ← unescape (written.length + 1) written
      some (.text (String.ofList meant), rest)
    else if c.isDigit then cutNumber (c :: rest)
    else if startsName c then
      let name := c :: rest.takeWhile continuesName
      some (.name (String.ofList name), rest.dropWhile continuesName)
    else cutMark (c :: rest)

/-- Cuts off the sign that may stand at either end of a tag; a minus says that
the text on that side loses its blanks. -/
def cutSide : List Char → Bool × List Char
  | '-' :: rest => (true, rest)
  | '+' :: rest => (false, rest)
  | cs => (false, cs)

/-- Cuts the end of a tag off, if it is at the front: `closing` and a brace.  The
flag says whether the text behind loses its blanks. -/
def cutEnd (closing : Char) (cs : List Char) : Option (Bool × List Char) :=
  let (trims, rest) := cutSide cs
  match rest with
  | c :: '}' :: rest => if c = closing then some (trims, rest) else none
  | _ => none

/-- Cuts the words of a tag off, up to and with its end, when `opened` brackets
are open.  Every character takes a step of `bound`. -/
def cutTagWords (closing : Char) :
    Nat → Int → List Char → Option (List Word × Bool × List Char)
  | 0, _, _ => none
  | bound + 1, opened, cs =>
    match if opened = 0 then cutEnd closing cs else none with
    | some (trims, rest) => some ([], trims, rest)
    | none =>
      if cs.head?.any isGap then cutTagWords closing bound opened (cs.drop 1)
      else do
        let (word, rest) ← cutWord cs
        let (words, trims, rest) ← cutTagWords closing bound (opened + word.opens) rest
        some (word :: words, trims, rest)

/-- Cuts the words of a tag off, up to and with its end. -/
def cutTag (closing : Char) (cs : List Char) : Option (List Word × Bool × List Char) :=
  cutTagWords closing (cs.length + 1) 0 cs

end LayeredConfig.Template
