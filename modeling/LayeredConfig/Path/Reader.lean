import LayeredConfig.Path.Basic

/-!
# Reading paths

One grammar covers both notations of a path.  After an optional leading slash,
points and slashes separate the pieces of a path; a piece is a key, possibly
empty, followed by any number of indices in brackets.  An empty key adds no
step, so separators may be repeated.

The reader runs once over the text and remembers where it is: inside a key,
inside a bracket, or behind one.  Behind a bracket only another bracket or a
separator may follow.  An index is at least one ASCII digit and stays below
`2 ^ 64`.
-/

namespace LayeredConfig.Path

/-- Where the reader stands in a piece of a path. -/
inductive Place where
  /-- In a key, of which these characters have been read. -/
  | key (read : List Char)
  /-- In a bracket, of which these digits have been read. -/
  | bracket (digits : List Char)
  /-- Right behind a bracket. -/
  | behind
  deriving DecidableEq, Repr

/-- The steps read so far and the place in the text. -/
structure Reader where
  steps : List Segment
  place : Place
  deriving DecidableEq, Repr

/-- The characters that separate the pieces of a path. -/
def isSeparator (c : Char) : Bool :=
  c == '.' || c == '/'

/-- The step that a finished key adds: none if the key is empty. -/
def keyStep (read : List Char) : List Segment :=
  if read.isEmpty then [] else [.key (String.ofList read)]

/-- The bound on indices. -/
def indexBound : Nat := Nat.pow 2 64

/-- Reads one more character. -/
def Reader.read (r : Reader) (c : Char) : Option Reader :=
  match r.place with
  | .key read =>
    if isSeparator c then some ⟨r.steps ++ keyStep read, .key []⟩
    else if c = '[' then some ⟨r.steps ++ keyStep read, .bracket []⟩
    else if c = ']' then none
    else some ⟨r.steps, .key (read ++ [c])⟩
  | .bracket digits =>
    if c.isDigit then some ⟨r.steps, .bracket (digits ++ [c])⟩
    else if c = ']' ∧ digits ≠ [] ∧ Decimal.naturalValue digits < indexBound then
      some ⟨r.steps ++ [.index (Decimal.naturalValue digits)], .behind⟩
    else none
  | .behind =>
    if isSeparator c then some ⟨r.steps, .key []⟩
    else if c = '[' then some ⟨r.steps, .bracket []⟩
    else none

/-- The steps at the end of the text, which must not stand inside a bracket. -/
def Reader.finish (r : Reader) : Option Path :=
  match r.place with
  | .key read => some (r.steps ++ keyStep read)
  | .bracket _ => none
  | .behind => some r.steps

/-- The text without one leading slash. -/
def dropSlash : List Char → List Char
  | '/' :: rest => rest
  | cs => cs

/-- Reads a path, if the text is one. -/
def readChars (cs : List Char) : Option Path :=
  ((dropSlash cs).foldlM Reader.read ⟨[], .key []⟩).bind Reader.finish

/-- Reads a path in dotted or root notation, if the text is one. -/
def read? (text : String) : Option Path :=
  readChars text.toList

end LayeredConfig.Path
