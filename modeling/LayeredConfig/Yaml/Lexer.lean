import LayeredConfig.Yaml.Scalar
import LayeredConfig.Yaml.Token

/-!
# The tokens of a YAML text

The lexer reads a text from left to right.  Two things are known only later than
the place they belong to.  A scalar turns out to be a key when a colon follows;
so every place where a key may start is remembered, and the key token, with the
start of a block mapping where there is one, goes in front of it afterwards.  And
a block collection ends where a later line is indented less.

A key that is recognised by its colon stays on one line and within 1024
characters.  Where a block mapping is open and a scalar starts in its column, the
scalar must turn out to be a key.
-/

namespace LayeredConfig.Yaml

/-- A place where a key may have started. -/
structure KeyStart where
  /-- The number of tokens before it. -/
  position : Nat
  index : Nat
  line : Nat
  column : Nat
  /-- Whether it is an error if no key started here. -/
  required : Bool

/-- The lexer between two tokens. -/
structure Lexer where
  cursor : Cursor
  tokens : Array Token
  /-- The key start of every open flow collection, the innermost first, and last
  that of the text outside them. -/
  starts : List (Option KeyStart)
  /-- The column of the innermost open block collection, −1 where there is none. -/
  indent : Int
  /-- The columns of the block collections around it. -/
  outer : List Int
  /-- Whether a key may start here. -/
  keyAllowed : Bool

namespace Lexer

/-- The start of a text. -/
def ofText (cs : List Char) : Lexer :=
  { cursor := .ofText cs
    tokens := #[]
    starts := [none]
    indent := -1
    outer := []
    keyAllowed := true }

/-- Whether a flow collection is open. -/
def inFlow (s : Lexer) : Bool :=
  1 < s.starts.length

/-- The lexer behind a token. -/
def push (s : Lexer) (token : Token) (after : Cursor) : Lexer :=
  { s with cursor := after, tokens := s.tokens.push token }

/-- Forgets the possible key start, unless a key is required there. -/
def dropStart (s : Lexer) : Option Lexer :=
  match s.starts with
  | some start :: rest => if start.required then none else some { s with starts := none :: rest }
  | _ => some s

/-- Remembers this place as a possible key start. -/
def saveStart (s : Lexer) : Option Lexer :=
  if s.keyAllowed then do
    let s ← s.dropStart
    let start : KeyStart :=
      { position := s.tokens.size
        index := s.cursor.index
        line := s.cursor.line
        column := s.cursor.column
        required := !s.inFlow && s.indent == s.cursor.column }
    some { s with starts := some start :: s.starts.drop 1 }
  else some s

/-- Whether a key start is on an earlier line or too far back. -/
def isStale (c : Cursor) (start : KeyStart) : Bool :=
  start.line < c.line || start.index + 1024 < c.index

/-- Forgets the key starts that have become stale. -/
def dropStale (s : Lexer) : Option Lexer :=
  let stale : Option KeyStart → Bool := fun start => start.any (isStale s.cursor)
  if s.starts.any fun start => stale start && start.any (·.required) then none
  else some { s with starts := s.starts.map fun start => if stale start then none else start }

/-- Opens a block collection at a column that is further in than the innermost
one; its start token goes before the token at `position`. -/
def openBlock (s : Lexer) (column : Nat) (position : Nat) (token : Token) : Lexer :=
  if !s.inFlow && s.indent < column then
    { s with
      tokens := s.tokens.insertIdxIfInBounds position token
      outer := s.indent :: s.outer
      indent := column }
  else s

/-- Closes every block collection that is further in than a column. -/
def closeBlocks (column : Int) (s : Lexer) : Lexer :=
  if s.inFlow then s else go s.outer s.indent s.tokens
where
  /-- Closes the innermost collection and goes on with those around it. -/
  go : List Int → Int → Array Token → Lexer
    | [], indent, tokens => { s with outer := [], indent, tokens }
    | next :: outer, indent, tokens =>
      if column < indent then go outer next (tokens.push .blockEnd)
      else { s with outer := next :: outer, indent, tokens }

/-- Goes over blanks, comments and line ends to the next token.  A tab counts as
a blank only where no key may start.  On a new line outside flow collections a
key may start. -/
def skipGap : Nat → Lexer → Lexer
  | 0, s => s
  | bound + 1, s =>
    let c := match s.cursor.rest with
      | '\uFEFF' :: _ => if s.cursor.column == 0 then s.cursor.skip 1 else s.cursor
      | _ => s.cursor
    let tabs := s.inFlow || !s.keyAllowed
    let c := (c.skipWhile fun ch => ch == ' ' || (tabs && ch == '\t')).skipComment
    match c.cutBreak? with
    | some (_, next) =>
      skipGap bound { s with cursor := next, keyAllowed := s.keyAllowed || !s.inFlow }
    | none => { s with cursor := c }

/-- A start or end mark of a document, or a directive, closes all blocks. -/
def closeDocument (s : Lexer) : Option Lexer :=
  ((s.closeBlocks (-1)).dropStart).map fun s => { s with keyAllowed := false }

/-- The start of a flow collection. -/
def openFlow (s : Lexer) (token : Token) : Option Lexer := do
  let s ← s.saveStart
  some { s.push token (s.cursor.skip 1) with starts := none :: s.starts, keyAllowed := true }

/-- The end of a flow collection. -/
def closeFlow (s : Lexer) (token : Token) : Option Lexer := do
  let s ← s.dropStart
  let starts := if s.inFlow then s.starts.drop 1 else s.starts
  some { s.push token (s.cursor.skip 1) with starts, keyAllowed := false }

/-- A dash before an item, or a question mark before a key. -/
def blockIndicator (s : Lexer) (start token : Token) (keyAllowed : Bool) : Option Lexer :=
  if !s.inFlow && !s.keyAllowed then none
  else do
    let s ← (s.openBlock s.cursor.column s.tokens.size start).dropStart
    some { s.push token (s.cursor.skip 1) with keyAllowed }

/-- A colon before a value.  If a key may have started, it did. -/
def valueIndicator (s : Lexer) : Option Lexer :=
  match s.starts with
  | some start :: rest =>
    let s := { s with tokens := s.tokens.insertIdxIfInBounds start.position .key }
    let s := s.openBlock start.column start.position .blockMappingStart
    some { s.push .value (s.cursor.skip 1) with starts := none :: rest, keyAllowed := false }
  | _ =>
    if !s.inFlow && !s.keyAllowed then none
    else
      let s := s.openBlock s.cursor.column s.tokens.size .blockMappingStart
      some { s.push .value (s.cursor.skip 1) with keyAllowed := !s.inFlow }

/-- A part of a node with which a key may start. -/
def nodePart (s : Lexer) (cut : Cursor → Option (Token × Cursor)) : Option Lexer := do
  let s ← s.saveStart
  let (token, after) ← cut s.cursor
  some { s.push token after with keyAllowed := false }

/-- A scalar in quotes. -/
def quotedScalar (s : Lexer) (quote : Char) : Option Lexer :=
  s.nodePart fun c =>
    (quoted quote (c.rest.length + 1) (c.skip 1)).map fun (text, after) =>
      (.scalar text false, after)

/-- A plain scalar.  If it ended with a line, a key may start behind it. -/
def plainScalar (s : Lexer) : Option Lexer := do
  let s ← s.saveStart
  let p ← plain s.inFlow (s.indent + 1).toNat (s.cursor.rest.length + 1) s.cursor
  some { s.push (.scalar p.text true) p.after with keyAllowed := p.broken }

/-- A block scalar. -/
def blockScalar (s : Lexer) (literal : Bool) : Option Lexer := do
  let s ← s.dropStart
  let (text, after) ← block literal s.indent (s.cursor.skip 1)
  some { s.push (.scalar text false) after with keyAllowed := true }

/-- The characters that start no plain scalar. -/
def isIndicator (c : Char) : Bool :=
  "-?:,[]\x7b\x7d#&*!|>'\"%@`".toList.contains c

/-- Whether a plain scalar starts with these characters. -/
def startsPlain (flow : Bool) (c : Char) (rest : List Char) : Bool :=
  !(isGap c || isBreak c || isIndicator c) ||
    (c == '-' && !rest.head?.any isGap) ||
    (!flow && (c == '?' || c == ':') && !endsWord rest)

/-- Reads the token that starts with `c` at the cursor. -/
def token (s : Lexer) (c : Char) (rest : List Char) : Option Lexer :=
  if s.cursor.column == 0 && c == '%' then do
    let s ← s.closeDocument
    let (token, after) ← cutDirective (s.cursor.skip 1)
    some (s.push token after)
  else if s.cursor.atMark '-' then
    s.closeDocument.map fun s => s.push .documentStart (s.cursor.skip 3)
  else if s.cursor.atMark '.' then
    s.closeDocument.map fun s => s.push .documentEnd (s.cursor.skip 3)
  else if c == '[' then s.openFlow .flowSequenceStart
  else if c == '{' then s.openFlow .flowMappingStart
  else if c == ']' then s.closeFlow .flowSequenceEnd
  else if c == '}' then s.closeFlow .flowMappingEnd
  else if c == ',' then
    s.dropStart.map fun s => { s.push .flowEntry (s.cursor.skip 1) with keyAllowed := true }
  else if c == '-' && endsWord rest then s.blockIndicator .blockSequenceStart .blockEntry true
  else if c == '?' && (s.inFlow || endsWord rest) then
    s.blockIndicator .blockMappingStart .key (!s.inFlow)
  else if c == ':' && (s.inFlow || endsWord rest) then s.valueIndicator
  else if c == '*' then
    s.nodePart fun c => (cutName (c.skip 1)).map fun (name, after) => (.alias name, after)
  else if c == '&' then
    s.nodePart fun c => (cutName (c.skip 1)).map fun (name, after) => (.anchor name, after)
  else if c == '!' then s.nodePart (cutTag s.inFlow)
  else if c == '|' && !s.inFlow then s.blockScalar true
  else if c == '>' && !s.inFlow then s.blockScalar false
  else if c == '\'' || c == '"' then s.quotedScalar c
  else if startsPlain s.inFlow c rest then s.plainScalar
  else none

/-- The end of the text. -/
def finish (s : Lexer) : Option (Array Token) :=
  ((s.closeBlocks (-1)).dropStart).map fun s => s.tokens.push .streamEnd

/-- Reads token after token.  Every token takes at least one character. -/
def run : Nat → Lexer → Option (Array Token)
  | 0, _ => none
  | bound + 1, s => do
    let s ← (s.skipGap (s.cursor.rest.length + 1)).dropStale
    let s := s.closeBlocks s.cursor.column
    match s.cursor.rest with
    | [] => s.finish
    | c :: rest => (s.token c rest).bind (run bound)

end Lexer

/-- The tokens of a text, if it can be cut into tokens. -/
def tokens? (cs : List Char) : Option (List Token) :=
  if cs.all isPrintable then
    (Lexer.run (cs.length + 2) (.ofText cs)).map Array.toList
  else none

end LayeredConfig.Yaml
