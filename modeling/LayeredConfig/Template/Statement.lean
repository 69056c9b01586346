import LayeredConfig.Template.Expr
import LayeredConfig.Template.Piece

/-!
# Statements of templates

A template is a list of statements: text, printed expressions, loops, branches,
assignments and definitions of functions.  The tags of a template say where the
parts of a statement begin and end.  Reading goes through the pieces from left to
right with the statements that are open at the moment, the innermost first.

* `Statement` is the result, `Statement.read?` reads a whole template;
* `Draft` is a template read in part, `Draft.add?` reads one more piece.
-/

namespace LayeredConfig.Template

/-- What a value is bound to: a name, or one target for every part of it. -/
inductive Target where
  | name (n : String)
  | parts (targets : List Target)

/-- A filter with its arguments. -/
structure FilterCall where
  name : String
  plain : List Expr
  named : List (String × Expr)

/-- A statement. -/
inductive Statement where
  | text (s : String)
  | output (e : Expr)
  /-- A loop; `otherwise` runs where there is nothing to run through. -/
  | loop (target : Target) (range : Expr) (filter : Option Expr) (body otherwise : List Statement)
  | branch (condition : Expr) (yes no : List Statement)
  | assign (target : Target) (value : Expr)
  /-- Binds a name to what the body prints, sent through filters. -/
  | capture (name : String) (filters : List FilterCall) (body : List Statement)
  /-- Defines a function by its parameters, some of which have a default. -/
  | define (name : String) (parameters : List (String × Option Expr)) (body : List Statement)
  deriving Inhabited

/-! ## Headers -/

/-- The names that nothing can be bound to. -/
def reservedNames : List String :=
  ["true", "True", "false", "False", "none", "None", "loop", "self"]

/-- Reads a name that something is bound to. -/
def readName : Reader String
  | .name n :: rest => if reservedNames.contains n then none else some (n, rest)
  | _ => none

/-- Whether the targets of a statement end in front of the words. -/
def endsTargets : List Word → Bool
  | [] => true
  | .name n :: _ => n == "in"
  | .mark m :: _ => m == ")"
  | _ => false

mutual

/-- Reads one target: a name, or several in parentheses. -/
def readTarget : Nat → Reader Target
  | 0, _ => none
  | bound + 1, words =>
    match skipMark? "(" words with
    | none => (readName words).map fun (n, rest) => (.name n, rest)
    | some rest => do
      let (targets, rest) ← readTargets bound rest
      let rest ← skipMark? ")" rest
      some (targets, rest)

/-- Reads targets with commas between them; a single one without a comma is meant
by itself. -/
def readTargets : Nat → Reader Target
  | 0, _ => none
  | bound + 1, words =>
    if endsTargets words then some (.parts [], words)
    else do
      let (first, rest) ← readTarget bound words
      match skipMark? "," rest with
      | none => some (first, rest)
      | some rest =>
        let (more, rest) ← readMoreTargets bound rest
        some (.parts (first :: more), rest)

/-- Reads the targets behind a comma. -/
def readMoreTargets : Nat → Reader (List Target)
  | 0, _ => none
  | bound + 1, words =>
    if endsTargets words then some ([], words)
    else do
      let (first, rest) ← readTarget bound words
      match skipMark? "," rest with
      | none => some ([first], rest)
      | some rest =>
        let (more, rest) ← readMoreTargets bound rest
        some (first :: more, rest)

end

/-- A bound for reading targets: every word takes at most two steps. -/
def targetBound (words : List Word) : Nat :=
  2 * words.length + 2

/-- Reads further targets, each behind a comma.  Every one takes a step of `bound`. -/
def readFurtherTargets : Nat → Reader (List Target)
  | 0, words => some ([], words)
  | bound + 1, words =>
    match skipMark? "," words with
    | none => some ([], words)
    | some rest => do
      let (target, rest) ← readTarget (targetBound rest) rest
      let (more, rest) ← readFurtherTargets bound rest
      some (target :: more, rest)

/-- Reads a parameter of a function, perhaps with its default. -/
def readParameter (levels : Nat) : Reader (String × Option Expr) := fun words => do
  let (n, rest) ← readName words
  match skipMark? "=" rest with
  | some rest => (Expr.read? levels rest).map fun (e, rest) => ((n, some e), rest)
  | none => some ((n, none), rest)

/-- Reads filters with bars between them, to the end of the words.  Every filter takes
a step of `bound`. -/
def readFilterCalls? (levels : Nat) : Nat → List Word → Option (List FilterCall)
  | 0, _ => none
  | bound + 1, words => do
    let ((name, plain, named), rest) ← Expr.readFilterName (Expr.read? levels) words
    if rest.isEmpty then some [{ name, plain, named }]
    else
      let rest ← skipMark? "|" rest
      (readFilterCalls? levels bound rest).map ({ name, plain, named } :: ·)

/-- Whether every parameter behind one with a default has a default as well. -/
def defaultsLast (parameters : List (String × Option Expr)) : Bool :=
  (parameters.dropWhile fun p => p.2.isNone).all fun p => p.2.isSome

/-- What is read when nothing must be left. -/
def only {α : Type} : α × List Word → Option α
  | (a, []) => some a
  | _ => none

/-! ## Open statements -/

/-- A statement whose end has not been read. -/
inductive Opened where
  /-- A loop; its body is known once the alternative has begun. -/
  | loop (target : Target) (range : Expr) (filter : Option Expr) (body : Option (List Statement))
  /-- A branch with the cases before the present one, which has no condition where
  it is the last. -/
  | branch (cases : List (Expr × List Statement)) (condition : Option Expr)
  | capture (name : String) (filters : List FilterCall)
  | define (name : String) (parameters : List (String × Option Expr))

/-- Nested branches for cases tried in order. -/
def chooseAmong (cases : List (Expr × List Statement)) (otherwise : List Statement) :
    List Statement :=
  cases.foldr (fun (condition, yes) no => [.branch condition yes no]) otherwise

/-- The name in the tag that ends a statement. -/
def Opened.ending : Opened → String
  | loop .. => "endfor"
  | branch .. => "endif"
  | capture .. => "endset"
  | define .. => "endmacro"

/-- The whole statement, from the part of it that stands before its end. -/
def Opened.close (body : List Statement) : Opened → List Statement
  | loop target range filter none => [.loop target range filter body []]
  | loop target range filter (some first) => [.loop target range filter first body]
  | branch cases (some condition) => chooseAmong (cases ++ [(condition, body)]) []
  | branch cases none => chooseAmong cases body
  | capture name filters => [.capture name filters body]
  | define name parameters => [.define name parameters body]

/-- A template read in part.  Statements are kept the last first. -/
structure Draft where
  /-- The statements of the innermost open one. -/
  here : List Statement
  /-- The open statements, each with the statements before it. -/
  around : List (Opened × List Statement)

namespace Draft

/-- Adds a statement. -/
def push (d : Draft) (s : Statement) : Draft :=
  { d with here := s :: d.here }

/-- Opens a statement. -/
def enter (d : Draft) (opened : Opened) : Draft :=
  { here := [], around := (opened, d.here) :: d.around }

/-- The levels of nesting that are left inside the open statements. -/
def levels (d : Draft) : Nat :=
  Expr.levelLimit - d.around.length

/-- Reads the tag that starts a loop. -/
def addLoop? (d : Draft) (levels : Nat) (words : List Word) : Option Draft := do
  let (target, rest) ← readTargets (targetBound words) words
  let rest ← skipName? "in" rest
  let (range, rest) ← Expr.readPlain? levels rest
  match skipName? "if" rest with
  | none => if rest.isEmpty then some (d.enter (.loop target range none none)) else none
  | some rest =>
    let filter ← (Expr.read? levels rest).bind only
    some (d.enter (.loop target range (some filter) none))

/-- Reads the tag of an assignment.  Without a value it starts one whose value is
printed up to its end. -/
def addAssignment? (d : Draft) (levels : Nat) (words : List Word) : Option Draft := do
  let (first, rest) ← readTarget (targetBound words) words
  let (more, rest) ← readFurtherTargets rest.length rest
  match words, rest, more with
  | .name n :: _, [], [] => some (d.enter (.capture n []))
  | .name n :: _, .mark "|" :: rest, [] =>
    let filters ← readFilterCalls? levels rest.length rest
    some (d.enter (.capture n filters))
  | _, rest, more =>
    let rest ← skipMark? "=" rest
    let value ← Expr.readValue? levels rest
    let target := if more.isEmpty then first else .parts (first :: more)
    some (d.push (.assign target value))

/-- Reads the tag that starts the definition of a function. -/
def addDefinition? (d : Draft) (levels : Nat) (words : List Word) : Option Draft := do
  match words with
  | .name n :: .mark "(" :: rest =>
    let parameters ←
      (separated (readParameter levels) ")" (rest.length + 1) rest).bind only
    if defaultsLast parameters then some (d.enter (.define n parameters)) else none
  | _ => none

/-- Reads a condition, to the end of the words. -/
def readCondition? (levels : Nat) (words : List Word) : Option Expr :=
  (Expr.readPlain? levels words).bind only

/-- Reads the tag of a further case. -/
def addCase? (d : Draft) (next : Option Expr) : Option Draft :=
  match d.around, next with
  | (.branch cases (some condition), outer) :: around, next =>
    let cases := cases ++ [(condition, d.here.reverse)]
    some { here := [], around := (.branch cases next, outer) :: around }
  | (.loop target range filter none, outer) :: around, none =>
    let opened := .loop target range filter (some d.here.reverse)
    some { here := [], around := (opened, outer) :: around }
  | _, _ => none

/-- Reads the tag that ends a statement. -/
def close? (d : Draft) (name : String) : Option Draft :=
  match d.around with
  | (opened, outer) :: around =>
    if opened.ending = name then
      some { here := (opened.close d.here.reverse).reverse ++ outer, around }
    else none
  | [] => none

/-- Reads the tag of a statement from behind its first name.  A statement that opens
here takes a level of nesting, one that goes on or ends has taken it before. -/
def addTag? (d : Draft) (name : String) (words : List Word) : Option Draft :=
  if name = "elif" then do
    let condition ← readCondition? d.levels words
    d.addCase? (some condition)
  else if name = "else" then if words.isEmpty then d.addCase? none else none
  else
    match d.levels with
    | 0 => if words.isEmpty then d.close? name else none
    | levels + 1 =>
      if name = "for" then d.addLoop? levels words
      else if name = "if" then do
        let condition ← readCondition? levels words
        some (d.enter (.branch [] (some condition)))
      else if name = "set" then d.addAssignment? levels words
      else if name = "macro" then d.addDefinition? levels words
      else if words.isEmpty then d.close? name
      else none

/-- Reads a piece. -/
def add? (d : Draft) : Piece → Option Draft
  | .text s => some (d.push (.text s))
  | .output words => do
    let e ← (Expr.read? d.levels words).bind only
    some (d.push (.output e))
  | .statement (.name n :: words) => d.addTag? n words
  | .statement _ => none

/-- The statements, if none is left open. -/
def finish? (d : Draft) : Option (List Statement) :=
  if d.around.isEmpty then some d.here.reverse else none

end Draft

/-- The statements of a template. -/
def Statement.read? (template : String) : Option (List Statement) := do
  let pieces ← pieces? template
  let draft ← pieces.foldlM Draft.add? { here := [], around := [] }
  draft.finish?

end LayeredConfig.Template
