import LayeredConfig.Template.Operator
import LayeredConfig.Template.Word

/-!
# Expressions of templates

From the loosest to the tightest: a choice `a if c else b`, `or`, `and`, `not`,
the comparisons, the sums, the join `~`, the products, the power, and a sign in
front.  All of them group from the left, but comparisons in a row are a chain in
which every one must hold.  An operand may be followed by `.name`, `[key]` and
`(arguments)`, and then by filters `| name` and tests `is name`.

* `Expr` is an expression;
* `Expr.read?` reads one off the front of a run of words; the reader of each
  level is built from that of the next tighter one, and brackets lead back to the
  whole with fewer levels of nesting left.
-/

namespace LayeredConfig.Template

/-- An expression. -/
inductive Expr where
  | literal (item : Item)
  | name (name : String)
  | list (items : List Expr)
  | map (entries : List (Expr × Expr))
  | field (of : Expr) (name : String)
  | index (of key : Expr)
  | negate (e : Expr)
  | complement (e : Expr)
  | both (a b : Expr)
  | either (a b : Expr)
  | binary (op : BinaryOp) (a b : Expr)
  /-- A chain of comparisons, each with its right operand. -/
  | compare (first : Expr) (rest : List (BinaryOp × Expr))
  | choice (condition yes no : Expr)
  | call (callee : Expr) (arguments : List Expr) (named : List (String × Expr))
  | filter (e : Expr) (name : String) (arguments : List Expr) (named : List (String × Expr))
  | test (e : Expr) (name : String) (arguments : List Expr) (named : List (String × Expr))
  deriving Inhabited

/-- An argument of a call. -/
inductive Argument where
  | plain (e : Expr)
  | named (name : String) (e : Expr)

/-- Reads something off the front of a run of words. -/
abbrev Reader (α : Type) := List Word → Option (α × List Word)

/-- The words behind a mark, if it is at the front. -/
def skipMark? (mark : String) : List Word → Option (List Word)
  | .mark m :: rest => if m = mark then some rest else none
  | _ => none

/-- The words behind a name, if it is at the front. -/
def skipName? (name : String) : List Word → Option (List Word)
  | .name n :: rest => if n = name then some rest else none
  | _ => none

/-- Reads parts with commas between them, up to and with a closing mark.  A comma
may stand behind the last part.  Every part takes a step of `bound`. -/
def separated {α : Type} (part : Reader α) (closing : String) : Nat → Reader (List α)
  | 0, _ => none
  | bound + 1, words =>
    match skipMark? closing words with
    | some rest => some ([], rest)
    | none => do
      let (a, rest) ← part words
      match skipMark? closing rest with
      | some rest => some ([a], rest)
      | none =>
        let rest ← skipMark? "," rest
        let (as, rest) ← separated part closing bound rest
        some (a :: as, rest)

namespace Expr

/-! ## Operands -/

/-- The items that some names always stand for. -/
def constant? (name : String) : Option Item :=
  if name = "true" ∨ name = "True" then some (.bool true)
  else if name = "false" ∨ name = "False" then some (.bool false)
  else if name = "none" ∨ name = "None" then some .null
  else none

/-- Reads an entry of a mapping. -/
def readEntry (whole : Reader Expr) : Reader (Expr × Expr) := fun words => do
  let (key, rest) ← whole words
  let rest ← skipMark? ":" rest
  let (value, rest) ← whole rest
  some ((key, value), rest)

/-- Reads what follows an opening parenthesis: an expression, or a list that is
told by its commas. -/
def readParenthesis (whole : Reader Expr) : Reader Expr := fun words =>
  match skipMark? ")" words with
  | some rest => some (list [], rest)
  | none => do
    let (e, rest) ← whole words
    match skipMark? ")" rest with
    | some rest => some (e, rest)
    | none =>
      let rest ← skipMark? "," rest
      let (es, rest) ← separated whole ")" (rest.length + 1) rest
      some (list (e :: es), rest)

/-- Reads texts that follow one another; together they are one text. -/
def readTexts (read : String) : List Word → String × List Word
  | .text s :: rest => readTexts (read ++ s) rest
  | rest => (read, rest)

/-- Reads an expression that no operator is part of. -/
def readPrimary (whole : Reader Expr) : Reader Expr
  | [] => none
  | .name n :: rest => some (((constant? n).map literal).getD (name n), rest)
  | .whole n :: rest => some (literal (.natural n), rest)
  | .decimal x :: rest => some (literal (.float x), rest)
  | .text s :: rest =>
    let (read, rest) := readTexts s rest
    some (literal (.text read), rest)
  | .mark m :: rest =>
    let bound := rest.length + 1
    if m = "(" then readParenthesis whole rest
    else if m = "[" then (separated whole "]" bound rest).map fun (es, rest) => (list es, rest)
    else if m = "\x7b" then
      (separated (readEntry whole) "\x7d" bound rest).map fun (es, rest) => (map es, rest)
    else none

/-- Reads a primary expression with signs in front. -/
def readSigned (whole : Reader Expr) : Nat → Reader Expr
  | 0, _ => none
  | bound + 1, words =>
    match skipMark? "-" words with
    | some rest => (readSigned whole bound rest).map fun (e, rest) => (negate e, rest)
    | none => readPrimary whole words

/-- Reads an argument.  A name and an equals sign may stand before it. -/
def readArgument (whole : Reader Expr) : Reader Argument := fun words => do
  let (e, rest) ← whole words
  match e, skipMark? "=" rest with
  | name n, some rest => (whole rest).map fun (e, rest) => (.named n e, rest)
  | e, _ => some (.plain e, rest)

/-- The arguments in two lists.  Plain ones must not follow named ones. -/
def sortArguments? : List Argument → Option (List Expr × List (String × Expr))
  | [] => some ([], [])
  | .plain e :: rest => (sortArguments? rest).map fun (es, named) => (e :: es, named)
  | .named n e :: rest => do
    let (es, named) ← sortArguments? rest
    if es.isEmpty then some ([], (n, e) :: named) else none

/-- Reads arguments from behind their opening parenthesis. -/
def readArguments (whole : Reader Expr) : Reader (List Expr × List (String × Expr)) :=
  fun words => do
    let (arguments, rest) ← separated (readArgument whole) ")" (words.length + 1) words
    let sorted ← sortArguments? arguments
    some (sorted, rest)

/-- The key of a whole number behind a point. -/
def place? (n : Nat) : Option Expr :=
  if n < Nat.pow 2 64 then some (literal (.natural n)) else none

/-- Reads attributes, indices and calls that follow an expression.  Each of them
takes a step of `bound`. -/
def readSuffixes (whole : Reader Expr) : Nat → Expr → Reader Expr
  | 0, e, words => some (e, words)
  | bound + 1, e, words =>
    match words with
    | .mark "." :: .name n :: rest => readSuffixes whole bound (field e n) rest
    | .mark "." :: .whole n :: rest => do
      let key ← place? n
      readSuffixes whole bound (index e key) rest
    | .mark "." :: _ => none
    | .mark "[" :: rest => do
      let (key, rest) ← whole rest
      let rest ← skipMark? "]" rest
      readSuffixes whole bound (index e key) rest
    | .mark "(" :: rest => do
      let ((arguments, named), rest) ← readArguments whole rest
      readSuffixes whole bound (call e arguments named) rest
    | words => some (e, words)

/-- Reads an operand: a signed primary expression and what follows it.  The parts
of the primary expression are nested deeper than the arguments behind it. -/
def readOperand (inner whole : Reader Expr) : Reader Expr := fun words => do
  let (e, rest) ← readSigned inner (words.length + 1) words
  readSuffixes whole rest.length e rest

/-- Whether a test takes the next word for its one argument without
parentheses. -/
def startsArgument : List Word → Bool
  | .name n :: _ => !(["and", "or", "else", "is"].contains n)
  | .mark m :: _ => ["-", "+", "[", "\x7b"].contains m
  | [] => false
  | _ => true

/-- Reads the arguments of a filter or a test, if there are any in parentheses. -/
def readInParentheses? (whole : Reader Expr) (words : List Word) :
    Option (Option ((List Expr × List (String × Expr)) × List Word)) :=
  match skipMark? "(" words with
  | some rest => (readArguments whole rest).map some
  | none => some none

/-- Reads the name of a filter and its arguments. -/
def readFilterName (whole : Reader Expr) :
    Reader (String × List Expr × List (String × Expr))
  | .name n :: rest => do
    match ← readInParentheses? whole rest with
    | some ((arguments, named), rest) => some ((n, arguments, named), rest)
    | none => some ((n, [], []), rest)
  | _ => none

/-- Reads a test from behind `is`. -/
def readTest (inner whole : Reader Expr) (e : Expr) : Reader Expr
  | .name n :: rest => do
    match ← readInParentheses? whole rest with
    | some ((arguments, named), rest) => some (test e n arguments named, rest)
    | none =>
      if startsArgument rest then
        let (argument, rest) ← readOperand inner whole rest
        some (test e n [argument] [], rest)
      else some (test e n [] [], rest)
  | _ => none

/-- Reads filters and tests that follow an expression.  Each of them takes a step
of `bound`. -/
def readFilters (inner whole : Reader Expr) : Nat → Expr → Reader Expr
  | 0, e, words => some (e, words)
  | bound + 1, e, words =>
    match words with
    | .mark "|" :: rest => do
      let ((n, arguments, named), rest) ← readFilterName whole rest
      readFilters inner whole bound (filter e n arguments named) rest
    | .name "is" :: .name "not" :: rest => do
      let (e, rest) ← readTest inner whole e rest
      readFilters inner whole bound (complement e) rest
    | .name "is" :: rest => do
      let (e, rest) ← readTest inner whole e rest
      readFilters inner whole bound e rest
    | words => some (e, words)

/-- Reads an operand with its filters and tests. -/
def readFiltered (inner whole : Reader Expr) : Reader Expr := fun words => do
  let (e, rest) ← readOperand inner whole words
  readFilters inner whole rest.length e rest

/-! ## Operators -/

/-- What an operator makes of its two operands. -/
abbrev Joining := Expr → Expr → Expr

/-- Reads operands with operators between them, after the first one.  Each
operator takes a step of `bound`. -/
def readChain (operator : Reader Joining) (operand : Reader Expr) : Nat → Expr → Reader Expr
  | 0, left, words => some (left, words)
  | bound + 1, left, words =>
    match operator words with
    | none => some (left, words)
    | some (join, rest) => do
      let (right, rest) ← operand rest
      readChain operator operand bound (join left right) rest

/-- A level of operators that group from the left. -/
def level (operator : Reader Joining) (operand : Reader Expr) : Reader Expr := fun words => do
  let (left, rest) ← operand words
  readChain operator operand rest.length left rest

/-- Reads an operator that is a mark. -/
def markOperator (table : List (String × BinaryOp)) : Reader Joining
  | .mark m :: rest => (table.lookup m).map fun op => (binary op, rest)
  | _ => none

/-- Reads an operator that is a name. -/
def nameOperator (name : String) (join : Joining) : Reader Joining := fun words =>
  (skipName? name words).map (join, ·)

/-- Reads a comparison operator. -/
def comparison : Reader BinaryOp
  | .name "in" :: rest => some (.among, rest)
  | .name "not" :: .name "in" :: rest => some (.notAmong, rest)
  | .mark m :: rest =>
    ([("==", .equal), ("!=", .different), ("<", .less), ("<=", .atMost), (">", .greater),
      (">=", .atLeast)].lookup m).map (·, rest)
  | _ => none

/-- Reads comparisons with their right operands.  Each takes a step of `bound`. -/
def readComparisons (operand : Reader Expr) : Nat → Reader (List (BinaryOp × Expr))
  | 0, words => some ([], words)
  | bound + 1, words =>
    match comparison words with
    | none => some ([], words)
    | some (op, rest) => do
      let (right, rest) ← operand rest
      let (more, rest) ← readComparisons operand bound rest
      some ((op, right) :: more, rest)

/-- Reads a chain of comparisons; without any it is the operand. -/
def readCompared (operand : Reader Expr) : Reader Expr := fun words => do
  let (first, rest) ← operand words
  let (chain, rest) ← readComparisons operand rest.length rest
  some (if chain.isEmpty then first else compare first chain, rest)

/-- Reads a run of `not` and what it is about. -/
def readComplement (operand : Reader Expr) : Nat → Reader Expr
  | 0, _ => none
  | bound + 1, words =>
    match skipName? "not" words with
    | some rest => (readComplement operand bound rest).map fun (e, rest) => (complement e, rest)
    | none => operand words

/-- Reads an expression that is no choice, with readers for what is nested in its
primary expressions and in the arguments behind them. -/
def readPlain (inner whole : Reader Expr) : Reader Expr :=
  let power := level (markOperator [("**", .power)]) (readFiltered inner whole)
  let product := level
    (markOperator
      [("*", .multiply), ("/", .divide), ("//", .quotient), ("%", .remainder)]) power
  let join := level (markOperator [("~", .join)]) product
  let sum := level (markOperator [("+", .add), ("-", .subtract)]) join
  let complement := fun words => readComplement (readCompared sum) (words.length + 1) words
  let conjunction := level (nameOperator "and" both) complement
  level (nameOperator "or" either) conjunction

/-- Reads the conditions of a choice, after its first part.  Each of them takes a
step of `bound`. -/
def readConditions (plain whole : Reader Expr) : Nat → Expr → Reader Expr
  | 0, e, words => some (e, words)
  | bound + 1, e, words =>
    match skipName? "if" words with
    | none => some (e, words)
    | some rest => do
      let (condition, rest) ← plain rest
      match skipName? "else" rest with
      | some rest =>
        let (no, rest) ← whole rest
        readConditions plain whole bound (choice condition e no) rest
      | none => readConditions plain whole bound (choice condition e (literal .undefined)) rest

/-- Reads an expression that may be a choice.  Every part takes a step of `bound`. -/
def readChoice (plain : Reader Expr) : Nat → Reader Expr
  | 0, _ => none
  | bound + 1, words => do
    let (e, rest) ← plain words
    readConditions plain (readChoice plain bound) rest.length e rest

/-- The number of levels that statements and expressions may nest.  A statement is
one, an expression in brackets and a primary expression are one each. -/
def levelLimit : Nat := 150

/-- Reads an expression when so many levels of nesting are left, with its own one
among them. -/
def readNested : Nat → Reader Expr
  | 0, _ => none
  | 1, _ => none
  | levels + 2, words =>
    readChoice (readPlain (readNested levels) (readNested (levels + 1))) (words.length + 1) words

/-- Reads an expression that is no choice, which takes no level itself. -/
def readPlain? : Nat → Reader Expr
  | 0, _ => none
  | levels + 1, words => readPlain (readNested levels) (readNested (levels + 1)) words

/-- Reads an expression, when so many levels of nesting are left. -/
def read? (levels : Nat) : Reader Expr :=
  readNested levels

/-- Reads expressions with commas between them, to the end of the words.  A comma may
stand behind the last one.  Every expression takes a step of `bound`. -/
def readRest? (whole : Reader Expr) : Nat → List Word → Option (List Expr)
  | _, [] => some []
  | 0, _ => none
  | bound + 1, words => do
    let (e, rest) ← whole words
    if rest.isEmpty then some [e]
    else
      let rest ← skipMark? "," rest
      (readRest? whole bound rest).map (e :: ·)

/-- Reads what a name is set to: an expression, or a list that is told by its
commas. -/
def readValue? (levels : Nat) (words : List Word) : Option Expr := do
  let (first, rest) ← read? levels words
  if rest.isEmpty then some first
  else
    let rest ← skipMark? "," rest
    (readRest? (read? levels) rest.length rest).map fun more => list (first :: more)

end Expr

end LayeredConfig.Template
