import LayeredConfig.Decimal.Notation
import LayeredConfig.Json.Printer
import LayeredConfig.Template.Order
import LayeredConfig.Text.Visible

/-!
# Items as text

An item is spelled in one of three ways.  Where a template prints it, a text
stands for itself and nothing stands for the undefined item.  Inside a list or a
mapping that is printed, texts are quoted.  And there is JSON.

* `Item.spell` prints an item, `Item.inspect` spells it inside a larger one;
* `Item.json?` is the JSON of an item, safe to stand in a document of markup.
-/

namespace LayeredConfig.Decimal

/-- Floats that a template prints: always positional. -/
def FloatLayout.printed : FloatLayout :=
  { FloatLayout.tree with
    leastPositional := -400
    mostPositional := 400 }

/-- Floats inside a list or a mapping that a template prints. -/
def FloatLayout.shown : FloatLayout :=
  { FloatLayout.tree with
    leastPositional := -4
    plusExponent := false }

end LayeredConfig.Decimal

namespace LayeredConfig.Template.Item

/-- An integer in decimal. -/
def wholeText (i : Int) : String :=
  String.ofList (Decimal.integerText i)

mutual

/-- An item as it is spelled inside a larger one. -/
def inspect : Item → String
  | undefined => "undefined"
  | null => "None"
  | bool b => if b then "True" else "False"
  | natural n => wholeText n
  | int i => wholeText i
  | float x => Decimal.FloatLayout.shown.text x
  | text s => Text.shown s
  | list items | stream items => "[" ++ ", ".intercalate (inspectItems items) ++ "]"
  | map entries => "\x7b" ++ ", ".intercalate (inspectEntries entries) ++ "\x7d"
  | item => item.label?.getD ""

/-- The items of a list, each spelled by itself. -/
def inspectItems : List Item → List String
  | [] => []
  | item :: rest => item.inspect :: inspectItems rest

/-- The entries of a mapping, each spelled by itself. -/
def inspectEntries : List (Item × Item) → List String
  | [] => []
  | (key, value) :: rest => (key.inspect ++ ": " ++ value.inspect) :: inspectEntries rest

end

/-- An item as a template prints it. -/
def spell : Item → String
  | undefined => ""
  | text s => s
  | float x => Decimal.FloatLayout.printed.text x
  | item => item.inspect

/-- The key of an entry in JSON. -/
def jsonKey? : Item → Option String
  | text s => some s
  | bool b => some (if b then "true" else "false")
  | natural n => some (wholeText n)
  | int i => some (wholeText i)
  | float x => some (String.ofList (Json.floatText x))
  | _ => none

mutual

/-- An item as JSON without a blank. -/
def jsonChars? : Item → Option (List Char)
  | undefined | null => some "null".toList
  | bool b => some (Json.boolText b)
  | natural n => some (Decimal.naturalText n)
  | int i => some (Decimal.integerText i)
  | float x => some (Json.floatText x)
  | text s => some (Text.quoted s)
  | list items | stream items => do
    let parts ← jsonItems? items
    some ('[' :: [','].intercalate parts ++ [']'])
  | map entries => do
    let parts ← jsonEntries? entries
    some ('{' :: [','].intercalate parts ++ ['}'])
  | item => item.label?.map Text.quoted

/-- The items of a list as JSON. -/
def jsonItems? : List Item → Option (List (List Char))
  | [] => some []
  | item :: rest => do
    let first ← jsonChars? item
    let more ← jsonItems? rest
    some (first :: more)

/-- The entries of a mapping as JSON. -/
def jsonEntries? : List (Item × Item) → Option (List (List Char))
  | [] => some []
  | (key, value) :: rest => do
    let name ← jsonKey? key
    let v ← jsonChars? value
    let more ← jsonEntries? rest
    some ((Text.quoted name ++ ':' :: v) :: more)

end

/-- A character of JSON, escaped where markup would take it for its own. -/
def guardChar (c : Char) : List Char :=
  if c = '<' then "\\u003c".toList
  else if c = '>' then "\\u003e".toList
  else if c = '&' then "\\u0026".toList
  else if c = '\'' then "\\u0027".toList
  else [c]

/-- An item as JSON that may stand in markup. -/
def json? (item : Item) : Option String :=
  item.jsonChars?.map fun cs => String.ofList (cs.flatMap guardChar)

end LayeredConfig.Template.Item
