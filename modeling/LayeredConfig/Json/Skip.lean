import LayeredConfig.Json.Reader

/-!
# JSON that is passed over

A value that nobody asks for is passed over: its shape must be right, but it is not
taken in.  So its numbers may be of any size, an escape in its strings needs no
meaning, and its containers may nest as deep as the text is long.

* `skip?` passes over one value.
-/

namespace LayeredConfig.Json

/-- Passes over a string whose opening quote has been read, up to and with the closing
one. -/
def skipString : List Char → Option (List Char)
  | [] => none
  | '"' :: rest => some rest
  | '\\' :: 'u' :: a :: b :: c :: d :: rest =>
    if [a, b, c, d].all fun e => (Text.hexValue? e).isSome then skipString rest else none
  | '\\' :: c :: rest => if (shortEscape? c).isSome then skipString rest else none
  | c :: rest => if c = '\\' ∨ c.toNat < 0x20 then none else skipString rest

/-- Passes over a scalar, of which no space stands in front. -/
def skipScalar (cs : List Char) : Option (List Char) :=
  match cs with
  | 'n' :: 'u' :: 'l' :: 'l' :: rest => some rest
  | 't' :: 'r' :: 'u' :: 'e' :: rest => some rest
  | 'f' :: 'a' :: 'l' :: 's' :: 'e' :: rest => some rest
  | '"' :: rest => skipString rest
  | cs => (cutNumeral cs).map Prod.snd

/-- Passes over an entry of a mapping, with a function that passes over its value. -/
def skipEntry (value : List Char → Option (Unit × List Char)) (cs : List Char) :
    Option (Unit × List Char) :=
  match skipSpace cs with
  | '"' :: rest => do
    let rest ← skipString rest
    match skipSpace rest with
    | ':' :: rest => value rest
    | _ => none
  | _ => none

/-- Passes over a value in which `nesting` more containers may be opened. -/
def skipNested : Nat → List Char → Option (Unit × List Char)
  | nesting, cs =>
    match skipSpace cs with
    | '[' :: rest =>
      match nesting with
      | 0 => none
      | nesting + 1 => (container (skipNested nesting) ']' rest).map fun (_, rest) => ((), rest)
    | '{' :: rest =>
      match nesting with
      | 0 => none
      | nesting + 1 =>
        (container (skipEntry (skipNested nesting)) '}' rest).map fun (_, rest) => ((), rest)
    | cs => (skipScalar cs).map fun rest => ((), rest)

/-- Passes over one value. -/
def skip? (cs : List Char) : Option (List Char) :=
  (skipNested cs.length cs).map Prod.snd

end LayeredConfig.Json
