import LayeredConfig.Decimal.Notation
import LayeredConfig.Text.Escaped
import LayeredConfig.Tree.Value

/-!
# Trees as JSON text

Two layouts of one tree: compact, without a blank, and indented, with one item
or entry a line.  An empty container is two brackets in both.  Floats are
written as everywhere in a tree, and those that are not finite as `null`.

* `Value.compactJson` is the text of a composite value inside a larger text;
* `Value.indentedJson` is the layout of exports.
-/

namespace LayeredConfig.Json

/-- The text of a float.  JSON has no numeral for one that is not finite. -/
def floatText (x : Float) : List Char :=
  if x.isFinite then (Decimal.FloatLayout.tree.text x).toList else "null".toList

/-- The text of a boolean. -/
def boolText (b : Bool) : List Char :=
  if b then "true".toList else "false".toList

mutual

/-- A value in compact layout. -/
def compact : Value → List Char
  | .null => "null".toList
  | .bool b => boolText b
  | .int i => Decimal.integerText i.toInt
  | .float x => floatText x
  | .str text => Text.quoted text
  | .seq items => '[' :: compactItems items ++ [']']
  | .map entries => '{' :: compactEntries entries ++ ['}']

/-- The items of a sequence, separated by commas. -/
def compactItems : List Value → List Char
  | [] => []
  | [v] => compact v
  | v :: rest => compact v ++ ',' :: compactItems rest

/-- The entries of a mapping, separated by commas. -/
def compactEntries : List (String × Value) → List Char
  | [] => []
  | [(key, v)] => Text.quoted key ++ ':' :: compact v
  | (key, v) :: rest => Text.quoted key ++ ':' :: compact v ++ ',' :: compactEntries rest

end

/-- A line break followed by the indentation of a depth, four blanks a level. -/
def newline (depth : Nat) : List Char :=
  '\n' :: List.replicate (4 * depth) ' '

mutual

/-- A value in indented layout, at a depth. -/
def indented (depth : Nat) : Value → List Char
  | .null => "null".toList
  | .bool b => boolText b
  | .int i => Decimal.integerText i.toInt
  | .float x => floatText x
  | .str text => Text.quoted text
  | .seq [] => ['[', ']']
  | .seq (v :: rest) => '[' :: indentedItems (depth + 1) (v :: rest) ++ newline depth ++ [']']
  | .map [] => ['{', '}']
  | .map (e :: rest) => '{' :: indentedEntries (depth + 1) (e :: rest) ++ newline depth ++ ['}']

/-- The items of a sequence, each on a line of its own. -/
def indentedItems (depth : Nat) : List Value → List Char
  | [] => []
  | [v] => newline depth ++ indented depth v
  | v :: rest => newline depth ++ indented depth v ++ ',' :: indentedItems depth rest

/-- The entries of a mapping, each starting on a line of its own. -/
def indentedEntries (depth : Nat) : List (String × Value) → List Char
  | [] => []
  | [(key, v)] => newline depth ++ Text.quoted key ++ ':' :: ' ' :: indented depth v
  | (key, v) :: rest =>
    newline depth ++ Text.quoted key ++ ':' :: ' ' :: indented depth v ++
      ',' :: indentedEntries depth rest

end

end LayeredConfig.Json

namespace LayeredConfig.Value

/-- The value as JSON without a blank. -/
def compactJson (v : Value) : String :=
  String.ofList (Json.compact v)

/-- The value as JSON indented by four blanks a level. -/
def indentedJson (v : Value) : String :=
  String.ofList (Json.indented 0 v)

/-- The text of a value where it is put into a larger text: strings as they
are, other scalars in their written form, composites as compact JSON. -/
def toText : Value → String
  | null => "null"
  | bool b => if b then "true" else "false"
  | int i => String.ofList (Decimal.integerText i.toInt)
  | float x => Decimal.FloatLayout.tree.text x
  | str text => text
  | v => v.compactJson

end LayeredConfig.Value
