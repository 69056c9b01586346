import LayeredConfig.Yaml.Datum

/-!
# Trees as YAML text

A tree is written in block layout: an entry or item a line, sequences inside
mappings not indented further, and an item's own entries beside its dash.  Empty
containers are two brackets.

A string is written plain where that reads back as the same string, else between
single quotes.  Characters that quotes cannot carry take double quotes with
escapes, and a string with line feeds becomes a literal block where it can.
-/

namespace LayeredConfig.Yaml

/-- Whether a string, written plain, might be read as something else, by a reader
that knows the words for booleans and null in any letter case. -/
def isAmbiguous (text : String) : Bool :=
  let lower := Decimal.asciiLower text.toList
  (boolWord? lower).isSome || isNullWord lower || hasLeadingZero text.toList ||
    match plainDatum text with
    | some (.str _) => false
    | _ => true

/-- The characters that quotes and plain scalars can carry. -/
def isWritable (c : Char) : Bool :=
  let n := c.toNat
  n == 0x0A || (0x20 ≤ n && n ≤ 0x7E) || (0xA0 ≤ n && n < 0xFFFE && n != 0xFEFF)

/-- What the characters of a string allow. -/
structure Shape where
  hasBreak : Bool
  plainAllowed : Bool
  singleAllowed : Bool
  blockAllowed : Bool

/-- Whether two characters that fit two classes stand next to each other. -/
def adjacent (p q : Char → Bool) : List Char → Bool
  | a :: b :: rest => (p a && q b) || adjacent p q (b :: rest)
  | _ => false

/-- Whether a colon before a gap, or a number sign behind one, stands in a text. -/
def hasInnerIndicator : List Char → Bool
  | a :: b :: rest =>
    (a == ':' && endsWord (b :: rest)) || (endsWord [a] && b == '#') ||
      hasInnerIndicator (b :: rest)
  | [a] => a == ':'
  | [] => false

/-- Whether a text starts like something else than a plain scalar. -/
def startsLikeMarkup : List Char → Bool
  | '-' :: '-' :: '-' :: _ => true
  | '.' :: '.' :: '.' :: _ => true
  | c :: rest =>
    "#,[]\x7b\x7d&*!|>'\"%@`".toList.contains c || ("?:-".toList.contains c && endsWord rest)
  | [] => false

/-- Finds out what the characters of a string allow. -/
def shape (cs : List Char) : Shape :=
  let isSpace : Char → Bool := (· == ' ')
  let edge : Char → Bool := fun c => isSpace c || isBreak c
  let hasBreak := cs.any isBreak
  let breakThenSpace := adjacent isBreak isSpace cs
  let special := adjacent isSpace isBreak cs || !cs.all isWritable
  let loose := cs.head?.any edge || cs.getLast?.any edge
  { hasBreak
    plainAllowed :=
      !(loose || hasBreak || special || startsLikeMarkup cs || hasInnerIndicator cs)
    singleAllowed := !(breakThenSpace || special)
    blockAllowed := !cs.isEmpty && !(cs.getLast?.any isSpace || special) }

/-- A number in upper-case hexadecimal digits. -/
def upperHex (width n : Nat) : List Char :=
  let digits := (Nat.toDigits 16 n).map Char.toUpper
  List.replicate (width - digits.length) '0' ++ digits

/-- The escape of a character in double quotes. -/
def doubleEscape (c : Char) : List Char :=
  match c with
  | '\x00' => ['\\', '0']
  | '\x07' => ['\\', 'a']
  | '\x08' => ['\\', 'b']
  | '\t' => ['\\', 't']
  | '\n' => ['\\', 'n']
  | '\x0b' => ['\\', 'v']
  | '\x0c' => ['\\', 'f']
  | '\r' => ['\\', 'r']
  | '\x1b' => ['\\', 'e']
  | '"' => ['\\', '"']
  | '\\' => ['\\', '\\']
  | '\x85' => ['\\', 'N']
  | '\xa0' => ['\\', '_']
  | '\u2028' => ['\\', 'L']
  | '\u2029' => ['\\', 'P']
  | c =>
    let n := c.toNat
    if n ≤ 0xFF then '\\' :: 'x' :: upperHex 2 n
    else if n ≤ 0xFFFF then '\\' :: 'u' :: upperHex 4 n
    else '\\' :: 'U' :: upperHex 8 n

/-- A string between double quotes. -/
def doubleQuoted (cs : List Char) : List Char :=
  '"' :: (cs.flatMap fun c =>
    if !isWritable c || isBreak c || c == '"' || c == '\\' then doubleEscape c else [c]) ++ ['"']

/-- A string between single quotes, where a line that goes on is indented. -/
def singleQuoted (indent : Nat) (cs : List Char) : List Char :=
  '\'' :: (cs.flatMap fun c =>
    if c == '\'' then ['\'', '\'']
    else if isBreak c then c :: List.replicate indent ' '
    else [c]) ++ ['\'']

/-- The hints behind the indicator of a literal block. -/
def blockHints (cs : List Char) : List Char :=
  let indentHint := if cs.head?.any fun c => c == ' ' || isBreak c then ['2'] else []
  let chompHint :=
    match cs.reverse with
    | [] => ['-']
    | [last] => if isBreak last then ['+'] else ['-']
    | last :: before :: _ =>
      if !isBreak last then ['-'] else if isBreak before then ['+'] else []
  indentHint ++ chompHint

/-- The lines of a literal block: every line that is not empty is indented. -/
def blockBody (indent : Nat) (fresh : Bool) : List Char → List Char
  | [] => []
  | c :: rest =>
    if isBreak c then c :: blockBody indent true rest
    else (if fresh then List.replicate indent ' ' else []) ++ c :: blockBody indent false rest

/-- A string as a literal block.  The line end behind the block belongs to the
layout, so one at the end of the text is left to it. -/
def literalBlock (indent : Nat) (cs : List Char) : List Char :=
  let body := blockBody indent true cs
  let body := if cs.getLast? == some '\n' then body.dropLast else body
  '|' :: blockHints cs ++ '\n' :: body

/-- A string, as a key on one line or as any other node. -/
def stringText (indent : Nat) (isKey : Bool) (text : String) : List Char :=
  let cs := text.toList
  let s := shape cs
  let quoted := if s.singleAllowed then singleQuoted indent cs else doubleQuoted cs
  if isKey && s.hasBreak then doubleQuoted cs
  else if cs.contains '\n' then
    if s.blockAllowed && !isKey then literalBlock indent cs else doubleQuoted cs
  else if isAmbiguous text then quoted
  else if s.plainAllowed then cs
  else quoted

/-- A float. -/
def floatText (x : Float) : List Char :=
  (Decimal.FloatLayout.yaml.text x).toList

/-- Whether a key fits before a colon: on one line, in at most 128 bytes. -/
def fitsKey (key : String) : Bool :=
  key.utf8ByteSize ≤ 128 && !key.toList.any isBreak

/-- A line end and an indentation. -/
def newline (indent : Nat) : List Char :=
  '\n' :: List.replicate indent ' '

/-- A key with the colon behind it.  One that does not fit before a colon has an
indicator of its own. -/
def keyText (indent : Nat) (key : String) : List Char :=
  if fitsKey key then stringText (indent + 2) true key ++ [':']
  else '?' :: ' ' :: stringText (indent + 2) false key ++ newline indent ++ [':']

/-- A scalar or an empty container. -/
def inlineText (indent : Nat) : Value → List Char
  | .null => "null".toList
  | .bool b => Json.boolText b
  | .int i => Decimal.integerText i.toInt
  | .float x => floatText x
  | .str text => stringText indent false text
  | .seq _ => ['[', ']']
  | .map _ => ['{', '}']

mutual

/-- A node whose first line is already indented by `indent`. -/
def nodeText (indent : Nat) : Value → List Char
  | .seq (v :: rest) => itemsText indent (v :: rest)
  | .map (e :: rest) => entriesText indent (e :: rest)
  | v => inlineText (indent + 2) v

/-- The items of a sequence, the further ones on lines of their own. -/
def itemsText (indent : Nat) : List Value → List Char
  | [] => []
  | [v] => '-' :: ' ' :: itemText indent v
  | v :: rest => '-' :: ' ' :: itemText indent v ++ newline indent ++ itemsText indent rest

/-- An item behind its dash: containers go on two columns further in. -/
def itemText (indent : Nat) : Value → List Char
  | .seq (v :: rest) => itemsText (indent + 2) (v :: rest)
  | .map (e :: rest) => entriesText (indent + 2) (e :: rest)
  | v => inlineText (indent + 2) v

/-- The value of an entry behind its colon: a sequence stays in the column of the
key, a mapping goes two columns further in. -/
def valueText (indent : Nat) : Value → List Char
  | .seq (v :: rest) => newline indent ++ itemsText indent (v :: rest)
  | .map (e :: rest) => newline (indent + 2) ++ entriesText (indent + 2) (e :: rest)
  | v => ' ' :: inlineText (indent + 2) v

/-- The entries of a mapping, the further ones on lines of their own. -/
def entriesText (indent : Nat) : List (String × Value) → List Char
  | [] => []
  | [(key, v)] => keyText indent key ++ valueText indent v
  | (key, v) :: rest =>
    keyText indent key ++ valueText indent v ++ newline indent ++ entriesText indent rest

end

/-- A value as a YAML document. -/
def write (v : Value) : String :=
  String.ofList (nodeText 0 v ++ ['\n'])

end LayeredConfig.Yaml
