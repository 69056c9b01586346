import LayeredConfig.Text.Escaped
import LayeredConfig.Yaml.Cursor

/-!
# Tokens of YAML

The tokens spell out the structure that indentation stands for: block
collections have a start and an end token of their own, and a key that is
recognised by the colon behind it has a key token in front.

The properties of a node, its anchor and its tag, are cut off a cursor by
`cutName` and `cutTag`, and a directive line by `cutDirective`.
-/

namespace LayeredConfig.Yaml

/-- A token. -/
inductive Token where
  | streamEnd
  /-- A version directive. -/
  | version (major minor : Nat)
  /-- A directive that gives a tag handle its meaning. -/
  | handle (name meaning : List Char)
  | documentStart
  | documentEnd
  | blockSequenceStart
  | blockMappingStart
  | blockEnd
  | flowSequenceStart
  | flowSequenceEnd
  | flowMappingStart
  | flowMappingEnd
  | blockEntry
  | flowEntry
  | key
  | value
  | alias (name : List Char)
  | anchor (name : List Char)
  /-- A tag; without a handle the rest is the whole tag. -/
  | tag (handle rest : List Char)
  | scalar (text : List Char) (isPlain : Bool)
  deriving DecidableEq, Repr, Inhabited

/-- Cuts the name of an anchor or alias off, from behind its indicator. -/
def cutName (c : Cursor) : Option (List Char × Cursor) :=
  let name := c.rest.takeWhile isNameChar
  let after := c.skip name.length
  let ends := endsWord after.rest ||
    after.rest.head?.any fun ch => "?:,]\x7d%@`".toList.contains ch
  if name.isEmpty || !ends then none else some (name, after)

/-- The characters of a tag, apart from the escapes. -/
def isTagChar (verbatim : Bool) (c : Char) : Bool :=
  isNameChar c || ";/?:@&=+$.!~*'()".toList.contains c ||
    (verbatim && (c == ',' || c == '[' || c == ']'))

/-- One byte written as an escape, `%` and two hexadecimal digits. -/
def escapedByte : List Char → Option (Nat × List Char)
  | '%' :: a :: b :: rest => do
    let a ← Text.hexValue? a
    let b ← Text.hexValue? b
    some (16 * a + b, rest)
  | _ => none

/-- The further bytes of an escaped character, each of the form `10xxxxxx`. -/
def continuation : Nat → Nat → List Char → Option (Nat × List Char)
  | 0, n, cs => some (n, cs)
  | count + 1, n, cs => do
    let (byte, rest) ← escapedByte cs
    if byte / 64 = 2 then continuation count (64 * n + byte % 64) rest else none

/-- A character written as the escapes of its bytes in UTF-8. -/
def escapedChar (cs : List Char) : Option (Char × List Char) := do
  let (byte, rest) ← escapedByte cs
  let (count, start) ←
    if byte < 0x80 then some (0, byte)
    else if byte / 32 = 6 then some (1, byte % 32)
    else if byte / 16 = 14 then some (2, byte % 16)
    else if byte / 8 = 30 then some (3, byte % 8)
    else none
  let (n, rest) ← continuation count start rest
  if n.isValidChar then some (Char.ofNat n, rest) else none

/-- Cuts the text of a tag off. -/
def cutTagText (verbatim : Bool) : Nat → Cursor → Option (List Char × Cursor)
  | 0, c => some ([], c)
  | bound + 1, c =>
    match c.rest with
    | [] => some ([], c)
    | ch :: _ =>
      if ch == '%' then do
        let (ch, rest) ← escapedChar c.rest
        let (text, after) ← cutTagText verbatim bound (c.skip (c.rest.length - rest.length))
        some (ch :: text, after)
      else if isTagChar verbatim ch then do
        let (text, after) ← cutTagText verbatim bound (c.skip 1)
        some (ch :: text, after)
      else some ([], c)

/-- Cuts a tag handle off: `!`, a name that may be empty, and perhaps another
`!`. -/
def cutHandle (c : Cursor) : Option (List Char × Cursor) :=
  match c.rest with
  | '!' :: rest =>
    let name := rest.takeWhile isNameChar
    let closing := if (rest.drop name.length).head? == some '!' then ['!'] else []
    let handle := '!' :: name ++ closing
    some (handle, c.skip handle.length)
  | _ => none

/-- Whether a handle is the primary one or has a closing mark. -/
def isClosedHandle (handle : List Char) : Bool :=
  1 < handle.length && handle.getLast? == some '!'

/-- Cuts a tag off that starts at the cursor. -/
def cutTagBody (c : Cursor) : Option (Token × Cursor) :=
  let bound := c.rest.length + 1
  match c.rest with
  | '!' :: '<' :: _ => do
    let (text, after) ← cutTagText true bound (c.skip 2)
    if text.isEmpty || after.rest.head? != some '>' then none
    else some (.tag [] text, after.skip 1)
  | _ => do
    let (handle, after) ← cutHandle c
    let (text, after) ← cutTagText false bound after
    if isClosedHandle handle then
      if text.isEmpty then none else some (.tag handle text, after)
    else
      let whole := handle.drop 1 ++ text
      if whole.isEmpty then some (.tag [] ['!'], after) else some (.tag ['!'] whole, after)

/-- Cuts a tag off.  A gap must follow, or in a flow collection a comma. -/
def cutTag (flow : Bool) (c : Cursor) : Option (Token × Cursor) := do
  let (token, after) ← cutTagBody c
  if endsWord after.rest || (flow && after.rest.head? == some ',') then some (token, after)
  else none

/-- A number of at most nine digits. -/
def cutVersionNumber (c : Cursor) : Option (Nat × Cursor) :=
  let digits := c.rest.takeWhile Char.isDigit
  if digits.isEmpty || 9 < digits.length then none
  else some (Nat.ofDigitChars 10 digits 0, c.skip digits.length)

/-- The rest of a version directive. -/
def cutVersion (c : Cursor) : Option (Token × Cursor) := do
  let (major, c) ← cutVersionNumber (c.skipWhile isGap)
  if c.rest.head? != some '.' then none
  else
    let (minor, c) ← cutVersionNumber (c.skip 1)
    some (.version major minor, c)

/-- The rest of a directive for a tag handle. -/
def cutHandleMeaning (c : Cursor) : Option (Token × Cursor) := do
  let (handle, c) ← cutHandle (c.skipWhile isGap)
  if !(handle == ['!'] || isClosedHandle handle) || !c.rest.head?.any isGap then none
  else
    let c := c.skipWhile isGap
    let (meaning, c) ← cutTagText true (c.rest.length + 1) c
    if meaning.isEmpty || !endsWord c.rest then none else some (.handle handle meaning, c)

/-- Cuts a directive line off, from behind its indicator. -/
def cutDirective (c : Cursor) : Option (Token × Cursor) := do
  let name := c.rest.takeWhile isNameChar
  let after := c.skip name.length
  if name.isEmpty || !endsWord after.rest then none
  else
    let (token, c) ←
      if name == "YAML".toList then cutVersion after
      else if name == "TAG".toList then cutHandleMeaning after
      else none
    let c := (c.skipWhile isGap).skipComment
    if !endsLine c.rest then none
    else
      match c.cutBreak? with
      | some (_, next) => some (token, next)
      | none => some (token, c)

end LayeredConfig.Yaml
