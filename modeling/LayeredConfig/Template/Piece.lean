import LayeredConfig.Template.Word
import LayeredConfig.Text.Blank

/-!
# The pieces of a template

A template is text with tags in it.  A tag opens with a brace and a second mark:
another brace around an expression, a percent sign around a statement, a hash
sign around a comment.  A minus just inside a tag takes the blanks off the text
on that side.  Between `raw` and `endraw` everything is text.

* `pieces?` cuts a template into its pieces; comments are gone.
-/

namespace LayeredConfig.Template

/-- A piece of a template. -/
inductive Piece where
  | text (s : String)
  | output (words : List Word)
  | statement (words : List Word)

/-- The three sorts of tags. -/
inductive Opener where
  | output | statement | comment
  deriving DecidableEq

/-- The sort of tag that a second mark opens. -/
def opener? : Char → Option Opener
  | '{' => some .output
  | '%' => some .statement
  | '#' => some .comment
  | _ => none

/-- The text up to the first tag, and what stands behind the two marks. -/
def cutText : List Char → List Char × Option (Opener × List Char)
  | [] => ([], none)
  | [c] => ([c], none)
  | c :: d :: rest =>
    match if c = '{' then opener? d else none with
    | some opener => ([], some (opener, rest))
    | none =>
      let (text, found) := cutText (d :: rest)
      (c :: text, found)

/-- Cuts a comment off, from behind its opening.  The flag says whether the text
behind loses its blanks. -/
def cutComment : List Char → Option (Bool × List Char)
  | '-' :: '#' :: '}' :: rest => some (true, rest)
  | '#' :: '}' :: rest => some (false, rest)
  | _ :: rest => cutComment rest
  | [] => none

/-- Cuts a name off, if it stands at the front. -/
def cutPrefix : List Char → List Char → Option (List Char)
  | [], cs => some cs
  | c :: name, d :: rest => if c = d then cutPrefix name rest else none
  | _ :: _, [] => none

/-- Cuts off what is left of a tag that holds the one word `name`. -/
def cutNamedTag (name : String) (cs : List Char) : Option (Bool × List Char) := do
  let rest ← cutPrefix name.toList (cs.dropWhile isGap)
  cutEnd '%' (rest.dropWhile isGap)

/-- Cuts a raw text off, with the tag that ends it.  The first flag says whether
the text itself loses the blanks at its end, the second whether the text behind
loses those at its start. -/
def cutRaw : List Char → Option (List Char × Bool × Bool × List Char)
  | [] => none
  | [_] => none
  | c :: d :: rest =>
    let (trimsEnd, inside) := cutSide rest
    match if c = '{' ∧ d = '%' then cutNamedTag "endraw" inside else none with
    | some (trims, rest) => some ([], trimsEnd, trims, rest)
    | none => (cutRaw (d :: rest)).map fun (text, tail) => (c :: text, tail)

/-- A text without the blanks at the ends that are to lose them. -/
def trimSides (atStart atEnd : Bool) (cs : List Char) : String :=
  let cs := if atStart then cs.dropWhile Text.isBlank else cs
  String.ofList (if atEnd then Text.trimRight cs else cs)

/-- What stands behind the opening of a tag: its piece, if it makes one, whether
the text behind loses its blanks, and that text. -/
def cutPiece (opener : Opener) (cs : List Char) : Option (Option Piece × Bool × List Char) :=
  match opener with
  | .comment => do
    let (trims, rest) ← cutComment cs
    some (none, trims, rest)
  | .output => do
    let (words, trims, rest) ← cutTag '}' cs
    some (some (.output words), trims, rest)
  | .statement =>
    match cutNamedTag "raw" cs with
    | some (atStart, rest) => do
      let (raw, atEnd, trims, rest) ← cutRaw rest
      some (some (.text (trimSides atStart atEnd raw)), trims, rest)
    | none => do
      let (words, trims, rest) ← cutTag '%' cs
      some (some (.statement words), trims, rest)

/-- Cuts a text into pieces.  The flag says whether it loses the blanks at its
start.  Every tag takes a step of `bound`. -/
def cutPieces : Nat → Bool → List Char → Option (List Piece)
  | 0, _, _ => none
  | bound + 1, trims, cs =>
    match cutText cs with
    | (text, none) => some [.text (trimSides trims false text)]
    | (text, some (opener, rest)) => do
      let (atEnd, rest) := cutSide rest
      let (piece, trimsNext, rest) ← cutPiece opener rest
      let more ← cutPieces bound trimsNext rest
      some (.text (trimSides trims atEnd text) :: piece.toList ++ more)

/-- The pieces of a template. -/
def pieces? (template : String) : Option (List Piece) :=
  cutPieces (template.length + 1) false template.toList

end LayeredConfig.Template
