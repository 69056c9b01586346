/-!
# Positions in a YAML text

Indentation carries meaning in YAML, so a scan knows the line and the column it
has reached.  A `Cursor` is the text that is left together with that position.
A line ends at a line feed, a carriage return, both in this order, or at one of
the three Unicode line ends; the first four are all read as a line feed.
-/

namespace LayeredConfig.Yaml

/-- The text that is left, and where it starts. -/
structure Cursor where
  rest : List Char
  /-- The number of characters before this place. -/
  index : Nat
  line : Nat
  /-- The number of characters before this place in its line. -/
  column : Nat
  deriving Repr

/-- The characters that may occur in a YAML text. -/
def isPrintable (c : Char) : Bool :=
  let n := c.toNat
  n == 0x09 || n == 0x0A || n == 0x0D || (0x20 ≤ n && n ≤ 0x7E) || n == 0x85 ||
    (0xA0 ≤ n && n ≤ 0xD7FF) || (0xE000 ≤ n && n ≤ 0xFFFD) || 0x10000 ≤ n

/-- The characters that end a line. -/
def isBreak (c : Char) : Bool :=
  c == '\n' || c == '\r' || c == '\x85' || c == '\u2028' || c == '\u2029'

/-- The characters that separate words in a line. -/
def isGap (c : Char) : Bool :=
  c == ' ' || c == '\t'

/-- The characters of names: of anchors, directives and tag handles. -/
def isNameChar (c : Char) : Bool :=
  c.isAlphanum || c == '_' || c == '-'

/-- Whether a text starts with a gap or a line end, or is at its end. -/
def endsWord : List Char → Bool
  | [] => true
  | c :: _ => isGap c || isBreak c

/-- Whether a text starts with a line end, or is at its end. -/
def endsLine : List Char → Bool
  | [] => true
  | c :: _ => isBreak c

namespace Cursor

/-- The start of a text. -/
def ofText (cs : List Char) : Cursor := ⟨cs, 0, 0, 0⟩

/-- The place `n` characters further on in the same line. -/
def skip (c : Cursor) (n : Nat) : Cursor :=
  { c with rest := c.rest.drop n, index := c.index + n, column := c.column + n }

/-- The place behind all characters of a class. -/
def skipWhile (c : Cursor) (p : Char → Bool) : Cursor :=
  c.skip (c.rest.takeWhile p).length

/-- The place behind a line end of `n` characters. -/
def nextLine (c : Cursor) (n : Nat) : Cursor :=
  { rest := c.rest.drop n, index := c.index + n, line := c.line + 1, column := 0 }

/-- Cuts a line end off: how it is read, and the start of the next line. -/
def cutBreak? (c : Cursor) : Option (Char × Cursor) :=
  match c.rest with
  | '\r' :: '\n' :: _ => some ('\n', c.nextLine 2)
  | '\r' :: _ | '\n' :: _ | '\x85' :: _ => some ('\n', c.nextLine 1)
  | '\u2028' :: _ => some ('\u2028', c.nextLine 1)
  | '\u2029' :: _ => some ('\u2029', c.nextLine 1)
  | _ => none

/-- Whether a line starts here with three times a character, as a word. -/
def atMark (c : Cursor) (mark : Char) : Bool :=
  match c.rest with
  | x :: y :: z :: rest => c.column == 0 && x == mark && y == mark && z == mark && endsWord rest
  | _ => false

/-- Whether a line starts here with the start or the end mark of a document. -/
def atDocumentMark (c : Cursor) : Bool :=
  c.atMark '-' || c.atMark '.'

/-- The place behind a comment, if there is one. -/
def skipComment (c : Cursor) : Cursor :=
  match c.rest with
  | '#' :: _ => c.skipWhile fun ch => !isBreak ch
  | _ => c

end Cursor

end LayeredConfig.Yaml
