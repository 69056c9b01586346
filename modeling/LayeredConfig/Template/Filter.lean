import LayeredConfig.Template.Operator
import LayeredConfig.Text.Blank
import LayeredConfig.Text.LetterCase

/-!
# Filters, tests and built-in functions

A filter turns an item into another one, a test asks a question about it.  Both
go by their name and may take arguments.  They fail where the name is unknown,
where an argument is missing or too many, and where the item is of the wrong
sort.

* `filter?`, `test?` and `builtin?` are the meanings of the names.
-/

namespace LayeredConfig.Template

/-- The arguments of a call. -/
structure Arguments where
  plain : List Item
  named : List (String × Item)

namespace Filter

/-- An argument, unless it is nothing, which is the same as leaving it out. -/
def given? (item : Item) : Option Item :=
  if item.isNothing then none else some item

/-- The text of an argument; the empty one where it is left out. -/
def givenText (item : Item) : String :=
  ((given? item).map Item.spell).getD ""

/-- The text of an item, with `chars` or, without them, the blanks taken off both
its ends. -/
def trim (chars : Option String) (s : String) : String :=
  match chars with
  | none => Text.trim s
  | some chars =>
    let drop := fun cs : List Char => cs.dropWhile chars.toList.contains
    String.ofList (drop (drop s.toList).reverse).reverse

/-- The spelled elements of an item with a joiner between them. -/
def join? (joiner : String) (item : Item) : Option Item :=
  item.elements?.map fun items => .text (joiner.intercalate (items.map Item.spell))

/-- The item, or another one where it is undefined; where `lax`, also where it is not
true. -/
def fallback (item other : Item) (lax : Bool) : Item :=
  if item.isUndefined || (lax && !item.isTrue) then other else item

/-- The item or its fallback: the first argument, or else the empty text.  A second
argument, which may also be named, says whether it is lax. -/
def default? (item : Item) (plain : List Item) (named : List (String × Item)) : Option Item := do
  let (other, lax) ← match plain with
    | [] => some (.text "", false)
    | [other] => some (other, false)
    | [other, lax] => some (other, lax.isTrue)
    | _ => none
  if named.all fun (n, _) => n == "boolean" then
    some (fallback item other (lax || (named.getLast?.any fun entry => entry.2.isTrue)))
  else none

/-- The first part of a text, a list or a mapping. -/
def first? : Item → Option Item
  | .text s => some ((s.toList.head?.map Item.ofChar).getD .undefined)
  | item => item.parts?.map fun parts => parts.head?.getD .undefined

/-- The last part of a text or a list. -/
def last? : Item → Option Item
  | .text s => some ((s.toList.getLast?.map Item.ofChar).getD .undefined)
  | .list items | .stream items => some (items.getLast?.getD .undefined)
  | _ => none

/-- The sum of the elements that are defined, all of which must be numbers. -/
def sum? (item : Item) : Option Item := do
  let items ← item.elements?
  let defined := items.filter fun i => !i.isUndefined
  if defined.all Item.isNumber then defined.foldlM Item.add? (.int 0) else none

/-- The parts of an item from the last to the first. -/
def reverse? : Item → Option Item
  | .undefined => some .undefined
  | .null => some .null
  | .text s => some (.text (String.ofList s.toList.reverse))
  | item => item.parts?.map fun parts => .stream parts.reverse

/-- The entries of a mapping as lists of a key and a value. -/
def entries? : Item → Option Item
  | .map entries => some (.stream (entries.map fun (k, v) => .list [k, v]))
  | _ => none

/-- The integer that an optional sign and digits stand for. -/
def wholeNumeral? (s : String) : Option Int :=
  let (negative, digits) := Decimal.cutSign s.toList
  if digits.isEmpty || !digits.all Char.isDigit then none
  else
    let i := Decimal.signed negative (Decimal.naturalValue digits)
    if fits i then some i else none

/-- An item as an integer; a float loses what stands behind its point. -/
def whole? : Item → Option Item
  | .undefined | .null => some (.int 0)
  | .bool b => some (.natural (if b then 1 else 0))
  | .natural n => some (.natural n)
  | .int i => some (.int i)
  | .float x => some (.int (truncated x))
  | .text s =>
    match wholeNumeral? s with
    | some i => some (.int i)
    | none => (Decimal.float? s).map fun x => .int (truncated x)
  | _ => none

/-- An item as a float. -/
def decimal? : Item → Option Item
  | .undefined | .null => some (.float 0)
  | .text s => (Decimal.float? s).map .float
  | item => (item.toFloat? false).map .float

/-! ## Sorting -/

/-- How a list is sorted. -/
structure Sorting where
  caseSensitive : Bool
  reversed : Bool
  /-- The keys that an item is sorted by, the first one counting most.  Each is the
  names, separated by points, that lead from the item to it. -/
  keys : Option (List (List String))

/-- What follows a step of a key: a number counts, another name looks up. -/
def follow? (item : Item) (step : String) : Option Item :=
  let cs := step.toList
  let digits := if cs.head? = some '+' then cs.drop 1 else cs
  if !digits.isEmpty && digits.all Char.isDigit && Decimal.naturalValue digits < Nat.pow 2 64 then
    item.lookup? (.natural (Decimal.naturalValue digits))
  else item.lookup? (.text step)

/-- The order of what two items are sorted by. -/
def keyOrder (caseSensitive : Bool) : Item → Item → Ordering
  | .text s, .text t =>
    if caseSensitive then compare s t else compare (s.map Char.toLower) (t.map Char.toLower)
  | a, b => a.order b

/-- The order that one key puts two items in.  Where it leads nowhere, they are in no
order. -/
def pathOrder (caseSensitive : Bool) (a b : Item) (steps : List String) : Ordering :=
  match steps.foldlM follow? a, steps.foldlM follow? b with
  | some a, some b => keyOrder caseSensitive a b
  | _, _ => .eq

/-- The order that a sorting puts two items in. -/
def Sorting.order (sorting : Sorting) (a b : Item) : Ordering :=
  let order := match sorting.keys with
    | none => keyOrder sorting.caseSensitive a b
    | some keys =>
      keys.foldl (fun order steps => order.then (pathOrder sorting.caseSensitive a b steps)) .eq
  if sorting.reversed then order.swap else order

/-- Sorts items; those that are in no order keep theirs. -/
def Sorting.apply (sorting : Sorting) (items : List Item) : List Item :=
  items.mergeSort fun a b => sorting.order a b != .gt

/-- The keys that are written in one text, with commas between them. -/
def sortKeys (text : String) : List (List String) :=
  (text.splitOn ",").map fun key => (Text.trim key).splitOn "."

/-- The truth value of an argument that may be left out. -/
def flag? : Option Item → Option Bool
  | none | some .undefined | some .null => some false
  | some (.bool b) => some b
  | some _ => none

/-- The sorting that named arguments describe. -/
def sorting? (named : List (String × Item)) : Option Sorting := do
  let given := fun name => named.reverse.lookup name
  let caseSensitive ← flag? (given "case_sensitive")
  let reversed ← flag? (given "reverse")
  let keys ← match given "attribute" with
    | none | some .undefined | some .null => some none
    | some (.text s) => some (some (sortKeys s))
    | some _ => none
  if named.all fun (n, _) => ["case_sensitive", "reverse", "attribute"].contains n then
    some { caseSensitive, reversed, keys }
  else none

/-- The sorted elements of an item. -/
def sort? (named : List (String × Item)) (item : Item) : Option Item := do
  let sorting ← sorting? named
  let items ← item.elements?
  some (.list (sorting.apply items))

end Filter

/-- The meaning of a filter without named arguments. -/
def plainFilter? (name : String) (item : Item) (arguments : List Item) : Option Item :=
  match name, arguments with
  | "upper", [] => some (.text (Text.upper item.spell))
  | "lower", [] => some (.text (Text.lower item.spell))
  | "length", [] | "count", [] => item.size?.map .natural
  | "join", [] => Filter.join? "" item
  | "join", [joiner] => Filter.join? (Filter.givenText joiner) item
  | "trim", [] => some (.text (Filter.trim none item.spell))
  | "trim", [chars] => some (.text (Filter.trim ((Filter.given? chars).map Item.spell) item.spell))
  | "replace", [old, new] => some (.text (Text.replaceAll old.spell new.spell item.spell))
  | "first", [] => Filter.first? item
  | "last", [] => Filter.last? item
  | "sum", [] => Filter.sum? item
  | "reverse", [] => Filter.reverse? item
  | "items", [] => Filter.entries? item
  | "tojson", [] => item.json?.map .text
  | "int", [] => Filter.whole? item
  | "float", [] => Filter.decimal? item
  | _, _ => none

/-- The meaning of a filter. -/
def filter? (name : String) (item : Item) (arguments : Arguments) : Option Item :=
  if name = "sort" then
    if arguments.plain.isEmpty then Filter.sort? arguments.named item else none
  else if name = "default" ∨ name = "d" then
    Filter.default? item arguments.plain arguments.named
  else if arguments.named.isEmpty then plainFilter? name item arguments.plain
  else none

/-- The meaning of a test.  What is no whole number is neither odd nor even. -/
def test? (name : String) (item : Item) (arguments : Arguments) : Option Bool :=
  if !(arguments.plain.isEmpty && arguments.named.isEmpty) then none
  else if name = "defined" then some !item.isUndefined
  else if name = "undefined" then some item.isUndefined
  else if name = "none" then some (item matches .null)
  else if name = "odd" then some (item.toWhole?.any fun i => i % 2 != 0)
  else if name = "even" then some (item.toWhole?.any fun i => i % 2 == 0)
  else none

/-- The longest list of numbers that can be made. -/
def rangeLimit : Nat := 100000

/-- How many numbers there are from `low` to before `high`, `step` apart. -/
def rangeSize (low high step : Int) : Nat :=
  if 0 < step then ((high - low + (step - 1)) / step).toNat
  else ((low - high + (-step - 1)) / (-step)).toNat

/-- The numbers from `low` to before `high`, `step` apart; downwards where the step is
negative. -/
def range? (low high step : Item) : Option Item := do
  let low ← low.toInt64?
  let high ← high.toInt64?
  let step ← step.toInt64?
  let size := rangeSize low high step
  if step = 0 ∨ rangeLimit < size then none
  else some (.stream ((List.range size).map fun (i : Nat) => .int (low + i * step)))

/-- The numbers that a call of `range` asks for.  What is nothing counts as left out,
unless it is the first argument. -/
def rangeOf? : List Item → Option Item
  | [high] => range? (.int 0) high (.int 1)
  | [low, high] =>
    if high.isNothing then range? (.int 0) low (.int 1) else range? low high (.int 1)
  | [low, high, step] =>
    let step := (Filter.given? step).getD (.int 1)
    if high.isNothing then range? (.int 0) low step else range? low high step
  | _ => none

/-- The names of the built-in functions. -/
def builtinNames : List String := ["range"]

/-- The meaning of a built-in function. -/
def builtin? (name : String) (arguments : Arguments) : Option Item :=
  if arguments.named.isEmpty && name = "range" then rangeOf? arguments.plain else none

end LayeredConfig.Template
