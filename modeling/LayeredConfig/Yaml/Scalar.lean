import LayeredConfig.Text.Escaped
import LayeredConfig.Yaml.Cursor

/-!
# Texts of scalars

A scalar is written plain, between single or double quotes, or as a block.  In
the first three forms the text may go on over several lines; the gap between two
lines is then *folded*: a single line end becomes a blank, of several the first
one is dropped.

* `gap` reads the blanks and line ends between two words, `foldGap` is what it
  stands for;
* `quoted`, `plain` and `block` each cut one scalar off a cursor.
-/

namespace LayeredConfig.Yaml

/-- The blanks before the first line end of a gap, the line ends, and the place
behind.  Blanks after a line end are dropped. -/
structure Gap where
  blanks : List Char
  breaks : List Char
  after : Cursor

/-- Reads the gap at a cursor.  In a plain scalar, a tab may not indent a further
line to less than `least` columns. -/
def gap (least : Option Nat) : Nat → Bool → Cursor → Option Gap
  | 0, _, c => some ⟨[], [], c⟩
  | bound + 1, broken, c =>
    match c.cutBreak? with
    | some (b, next) =>
      (gap least bound true next).map fun g => { g with breaks := b :: g.breaks }
    | none =>
      match c.rest with
      | ch :: _ =>
        if isGap ch then
          if broken then
            if ch == '\t' && least.any (c.column < ·) then none
            else gap least bound true (c.skip 1)
          else
            (gap least bound false (c.skip 1)).map fun g => { g with blanks := ch :: g.blanks }
        else some ⟨[], [], c⟩
      | [] => some ⟨[], [], c⟩

/-- What a gap stands for. -/
def foldGap (g : Gap) : List Char :=
  match g.breaks with
  | [] => g.blanks
  | ['\n'] => [' ']
  | '\n' :: more => more
  | breaks => breaks

/-- The character that a simple escape in double quotes stands for. -/
def simpleEscape? (c : Char) : Option Char :=
  match c with
  | '0' => some '\x00'
  | 'a' => some '\x07'
  | 'b' => some '\x08'
  | 't' => some '\t'
  | '\t' => some '\t'
  | 'n' => some '\n'
  | 'v' => some '\x0b'
  | 'f' => some '\x0c'
  | 'r' => some '\r'
  | 'e' => some '\x1b'
  | ' ' => some ' '
  | '"' => some '"'
  | '/' => some '/'
  | '\\' => some '\\'
  | 'N' => some '\x85'
  | '_' => some '\xa0'
  | 'L' => some '\u2028'
  | 'P' => some '\u2029'
  | _ => none

/-- The number of digits behind an escape by code point. -/
def escapeDigits? (c : Char) : Option Nat :=
  match c with
  | 'x' => some 2
  | 'u' => some 4
  | 'U' => some 8
  | _ => none

/-- The number written in hexadecimal digits. -/
def hexNumber? (digits : List Char) : Option Nat :=
  digits.foldlM (fun n c => (Text.hexValue? c).map (16 * n + ·)) 0

/-- The character with a code point, unless that is half of a surrogate pair or
too large. -/
def codePoint? (n : Nat) : Option Char :=
  if n.isValidChar then some (Char.ofNat n) else none

/-- Reads an escape whose backslash and letter stand at the cursor. -/
def escape? (c : Cursor) : Option (Char × Cursor) :=
  match c.rest with
  | _ :: letter :: rest =>
    match simpleEscape? letter with
    | some ch => some (ch, c.skip 2)
    | none => do
      let count ← escapeDigits? letter
      let digits := rest.take count
      if digits.length < count then none
      else
        let n ← hexNumber? digits
        let ch ← codePoint? n
        some (ch, c.skip (2 + count))
  | _ => none

/-- Reads a scalar in quotes of one kind, from behind the opening one up to
behind the closing one. -/
def quoted (quote : Char) : Nat → Cursor → Option (List Char × Cursor)
  | 0, _ => none
  | bound + 1, c =>
    if c.atDocumentMark then none
    else
      match c.rest with
      | [] => none
      | ch :: rest =>
        if isGap ch || isBreak ch then do
          let g ← gap none (c.rest.length + 1) false c
          let (text, after) ← quoted quote bound g.after
          some (foldGap g ++ text, after)
        else if ch == quote then
          if quote == '\'' && rest.head? == some '\'' then do
            let (text, after) ← quoted quote bound (c.skip 2)
            some ('\'' :: text, after)
          else some ([], c.skip 1)
        else if quote == '"' && ch == '\\' then
          match (c.skip 1).cutBreak? with
          | some (_, next) => do
            let g ← gap none (c.rest.length + 1) true next
            let (text, after) ← quoted quote bound g.after
            some (g.breaks ++ text, after)
          | none => do
            let (ch, next) ← escape? c
            let (text, after) ← quoted quote bound next
            some (ch :: text, after)
        else do
          let (text, after) ← quoted quote bound (c.skip 1)
          some (ch :: text, after)

/-- The indicators of flow collections. -/
def isFlowIndicator (c : Char) : Bool :=
  c == ',' || c == '[' || c == ']' || c == '{' || c == '}'

/-- The characters of a plain scalar up to the next gap or to its end.  A colon
ends it before a gap; in a flow collection so does every indicator, and a colon
directly before one is an error. -/
def plainRun (flow : Bool) : List Char → Option (List Char)
  | [] => some []
  | c :: rest =>
    if isGap c || isBreak c then some []
    else if flow && c == ':' &&
        rest.head?.any fun d => d == '?' || isFlowIndicator d then none
    else if (c == ':' && endsWord rest) || (flow && isFlowIndicator c) then some []
    else (plainRun flow rest).map (c :: ·)

/-- A plain scalar, the place behind it, and whether a line ended there. -/
structure PlainScalar where
  text : List Char
  after : Cursor
  broken : Bool

/-- Reads a plain scalar.  Outside flow collections its further lines are
indented by at least `least` columns. -/
def plain (flow : Bool) (least : Nat) : Nat → Cursor → Option PlainScalar
  | 0, _ => none
  | bound + 1, c => do
    let run ← plainRun flow c.rest
    let c := c.skip run.length
    if c.rest.isEmpty || !endsWord c.rest then some ⟨run, c, false⟩
    else
      let g ← gap (some least) (c.rest.length + 1) false c
      let next := g.after
      let stop : PlainScalar := ⟨run, next, !g.breaks.isEmpty⟩
      if (!flow && next.column < least) || next.atDocumentMark || next.rest.head? == some '#' then
        some stop
      else
        let more ← plain flow least bound next
        if more.text.isEmpty then some stop
        else some { more with text := run ++ foldGap g ++ more.text }

/-- Which line ends at the end of a block count. -/
inductive Chomping where
  | strip | clip | keep
  deriving DecidableEq, Repr

/-- The header of a block: how its end is chomped and how far it is indented, as
far as that is said. -/
structure BlockHeader where
  chomping : Chomping
  indent : Option Nat

/-- Reads a chomping indicator. -/
def cutChomping (c : Cursor) : Option (Chomping × Cursor) :=
  match c.rest with
  | '+' :: _ => some (.keep, c.skip 1)
  | '-' :: _ => some (.strip, c.skip 1)
  | _ => none

/-- Reads an indentation indicator, which is a digit other than zero. -/
def cutIndent (c : Cursor) : Option (Option Nat × Cursor) :=
  match c.rest with
  | d :: _ =>
    if d == '0' then none
    else if d.isDigit then some (some (d.toNat - '0'.toNat), c.skip 1)
    else some (none, c)
  | [] => some (none, c)

/-- Reads the header of a block: the two indicators in either order. -/
def blockHeader (c : Cursor) : Option (BlockHeader × Cursor) :=
  match cutChomping c with
  | some (chomping, c) => (cutIndent c).map fun (indent, c) => (⟨chomping, indent⟩, c)
  | none =>
    (cutIndent c).map fun (indent, c) =>
      if indent.isNone then (⟨.clip, none⟩, c)
      else
        match cutChomping c with
        | some (chomping, c) => (⟨chomping, indent⟩, c)
        | none => (⟨.clip, indent⟩, c)

/-- Reads the empty lines and the indentation before a line of a block.  Without
a known indentation `widest` becomes the largest that was met. -/
def blockBreaks (indent : Option Nat) : Nat → Nat → Cursor → Option (List Char × Nat × Cursor)
  | 0, widest, c => some ([], widest, c)
  | bound + 1, widest, c =>
    let spaces := (c.rest.takeWhile (· == ' ')).length
    let c := c.skip <| match indent with
      | some indent => min spaces (indent - c.column)
      | none => spaces
    let widest := max widest c.column
    if c.rest.head? == some '\t' && indent.all (c.column < ·) then none
    else
      match c.cutBreak? with
      | some (b, next) =>
        (blockBreaks indent bound widest next).map fun (breaks, widest, after) =>
          (b :: breaks, widest, after)
      | none => some ([], widest, c)

/-- The state between two lines of a block: the text so far, the end of its last
line, the empty lines behind that, and whether that line started with a gap. -/
structure BlockLines where
  text : List Char
  last : List Char
  empty : List Char
  indented : Bool

/-- Reads the lines of a block that are indented by `indent` columns.  In a folded
block a line end between two lines that do not start with a gap is folded. -/
def blockLines (literal : Bool) (indent : Nat) :
    Nat → BlockLines → Cursor → Option (BlockLines × Cursor)
  | 0, lines, c => some (lines, c)
  | bound + 1, lines, c =>
    if c.column != indent || c.rest.isEmpty then some (lines, c)
    else do
      let indented := c.rest.head?.any isGap
      let joint :=
        if !literal && lines.last == ['\n'] && !lines.indented && !indented then
          if lines.empty.isEmpty then [' '] else lines.empty
        else lines.last ++ lines.empty
      let line := c.rest.takeWhile fun ch => !isBreak ch
      let c := c.skip line.length
      let (last, c) := match c.cutBreak? with
        | some (b, next) => ([b], next)
        | none => ([], c)
      let (empty, _, c) ← blockBreaks (some indent) (c.rest.length + 1) 0 c
      blockLines literal indent bound
        { text := lines.text ++ joint ++ line, last, empty, indented } c

/-- Reads a block from behind its indicator, inside a node that is indented by
`parent` columns, where −1 is the document itself. -/
def block (literal : Bool) (parent : Int) (c : Cursor) : Option (List Char × Cursor) := do
  let (header, c) ← blockHeader c
  let c := (c.skipWhile isGap).skipComment
  if !endsLine c.rest then none
  else
    let c := match c.cutBreak? with
      | some (_, next) => next
      | none => c
    let known := header.indent.map fun n => if 0 ≤ parent then parent.toNat + n else n
    let (empty, widest, c) ← blockBreaks known (c.rest.length + 1) 0 c
    let indent := known.getD (max (max widest (parent + 1).toNat) 1)
    let (lines, c) ← blockLines literal indent (c.rest.length + 1) ⟨[], [], empty, false⟩ c
    let text := match header.chomping with
      | .strip => lines.text
      | .clip => lines.text ++ lines.last
      | .keep => lines.text ++ lines.last ++ lines.empty
    some (text, c)

end LayeredConfig.Yaml
