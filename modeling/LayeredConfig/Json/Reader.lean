import LayeredConfig.Json.Numeral
import LayeredConfig.Text.Escaped

/-!
# Reading JSON

The strict grammar of JSON: one value between blanks, no comments, no trailing
commas.  Containers nest at most `nestingLimit` deep, an escaped surrogate must
be half of a pair, and of a repeated key the last value counts, in the place of
the first.

* `value?` reads one value off a text, by recursion on the nesting that is left;
* `read?` reads a whole document.
-/

namespace LayeredConfig.Json

/-- The number of containers that may be open at once. -/
def nestingLimit : Nat := 127

/-- The four characters that may stand between tokens. -/
def isSpace (c : Char) : Bool :=
  c == ' ' || c == '\t' || c == '\n' || c == '\r'

/-- The text without spaces in front. -/
def skipSpace (cs : List Char) : List Char :=
  cs.dropWhile isSpace

/-- The number written by four hexadecimal digits, and the rest. -/
def fourHex : List Char → Option (Nat × List Char)
  | a :: b :: c :: d :: rest => do
    let a ← Text.hexValue? a
    let b ← Text.hexValue? b
    let c ← Text.hexValue? c
    let d ← Text.hexValue? d
    some (((a * 16 + b) * 16 + c) * 16 + d, rest)
  | _ => none

/-- The character of a four-digit escape whose `\u` has been read.  The first
half of a surrogate pair must be followed by the escaped second half. -/
def unicodeEscape (cs : List Char) : Option (Char × List Char) := do
  let (n, rest) ← fourHex cs
  if 0xD800 ≤ n ∧ n < 0xDC00 then
    match rest with
    | '\\' :: 'u' :: rest =>
      let (m, rest) ← fourHex rest
      if 0xDC00 ≤ m ∧ m < 0xE000 then
        some (Char.ofNat (0x10000 + (n - 0xD800) * 0x400 + (m - 0xDC00)), rest)
      else none
    | _ => none
  else if 0xDC00 ≤ n ∧ n < 0xE000 then none
  else some (Char.ofNat n, rest)

/-- The character that a short escape stands for. -/
def shortEscape? (c : Char) : Option Char :=
  match c with
  | '"' => some '"'
  | '\\' => some '\\'
  | '/' => some '/'
  | 'b' => some '\x08'
  | 'f' => some '\x0c'
  | 'n' => some '\n'
  | 'r' => some '\r'
  | 't' => some '\t'
  | _ => none

/-- Reads one character of a string: as it stands, or escaped. -/
def stringChar : List Char → Option (Char × List Char)
  | [] => none
  | '\\' :: 'u' :: rest => unicodeEscape rest
  | '\\' :: c :: rest => (shortEscape? c).map (·, rest)
  | c :: rest => if c = '\\' ∨ c.toNat < 0x20 then none else some (c, rest)

/-- Reads a string whose opening quote has been read, up to and with the closing
one.  Every character takes at least one step of `bound`. -/
def stringBody : Nat → List Char → Option (List Char × List Char)
  | 0, _ => none
  | _ + 1, '"' :: rest => some ([], rest)
  | bound + 1, cs => do
    let (c, rest) ← stringChar cs
    let (read, rest) ← stringBody bound rest
    some (c :: read, rest)

/-- Reads a string whose opening quote has been read. -/
def stringRest (cs : List Char) : Option (String × List Char) :=
  (stringBody (cs.length + 1) cs).map fun (read, rest) => (String.ofList read, rest)

/-- Reads an entry of a mapping, with a reader for the value of its key. -/
def entry {α : Type} (value : String → List Char → Option (α × List Char)) (cs : List Char) :
    Option ((String × α) × List Char) :=
  match skipSpace cs with
  | '"' :: rest => do
    let (key, rest) ← stringRest rest
    match skipSpace rest with
    | ':' :: rest =>
      let (v, rest) ← value key rest
      some ((key, v), rest)
    | _ => none
  | _ => none

/-- Reads parts separated by commas up to and with the closing character, with a
reader for one part.  Every part takes at least one step of `bound`. -/
def parts {α : Type} (part : List Char → Option (α × List Char)) (closing : Char) :
    Nat → List Char → Option (List α × List Char)
  | 0, _ => none
  | bound + 1, cs => do
    let (a, rest) ← part cs
    match skipSpace rest with
    | c :: rest =>
      if c = ',' then
        let (more, rest) ← parts part closing bound rest
        some (a :: more, rest)
      else if c = closing then some ([a], rest)
      else none
    | [] => none

/-- Reads the parts of a container whose opening bracket has been read. -/
def container {α : Type} (part : List Char → Option (α × List Char)) (closing : Char)
    (cs : List Char) : Option (List α × List Char) :=
  match skipSpace cs with
  | c :: rest => if c = closing then some ([], rest) else parts part closing (cs.length + 1) cs
  | [] => none

/-- The mapping of entries in the order they were read. -/
def mappingOf (entries : List (String × Value)) : Mapping :=
  entries.foldl (fun m (key, v) => m.insert key v) []

/-- Reads a scalar, of which no space stands in front. -/
def scalar (cs : List Char) : Option (Value × List Char) :=
  match cs with
  | 'n' :: 'u' :: 'l' :: 'l' :: rest => some (.null, rest)
  | 't' :: 'r' :: 'u' :: 'e' :: rest => some (.bool true, rest)
  | 'f' :: 'a' :: 'l' :: 's' :: 'e' :: rest => some (.bool false, rest)
  | '"' :: rest => (stringRest rest).map fun (s, rest) => (.str s, rest)
  | cs => do
    let (n, rest) ← cutNumeral cs
    let v ← n.value?
    some (v, rest)

/-- Reads one value, in which `nesting` more containers may be opened. -/
def value? : Nat → List Char → Option (Value × List Char)
  | nesting, cs =>
    match skipSpace cs with
    | '[' :: rest =>
      match nesting with
      | 0 => none
      | nesting + 1 =>
        (container (value? nesting) ']' rest).map fun (items, rest) => (.seq items, rest)
    | '{' :: rest =>
      match nesting with
      | 0 => none
      | nesting + 1 =>
        (container (entry fun _ => value? nesting) '}' rest).map fun (entries, rest) =>
          (.map (mappingOf entries), rest)
    | cs => scalar cs

/-- Reads a JSON document. -/
def readChars (cs : List Char) : Option Value := do
  let (v, rest) ← value? nestingLimit cs
  if (skipSpace rest).isEmpty then some v else none

/-- The value of a JSON document, if the text is one. -/
def read? (text : String) : Option Value :=
  readChars text.toList

end LayeredConfig.Json
