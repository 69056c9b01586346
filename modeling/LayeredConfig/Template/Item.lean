import LayeredConfig.Decimal.Digits
import LayeredConfig.Tree.Value

/-!
# What a template computes with

The expressions of a template stand for items.  Every value of a configuration
tree is one; further there is the undefined item, which a name without a meaning
stands for, and there are items that are met only while a template is rendered:
streams, functions, routines and loops.

A stream is a list that an operation made and not a list that was written down.
The two are equal when their items are, but a stream has a place of its own in
the order of kinds.  Naturals are counts and the numerals of a template; integers
come from the tree and from arithmetic, which confines itself to 128 bits.  The
entries of a mapping are kept in the order of their keys, and a key may be any
item.

* `Item.isTrue`, `Item.size?` and `Item.elements?` look at an item as a
  condition, as something that has a length, and as what a loop runs through;
* `Item.label?` is the text of an item that is no data.
-/

namespace LayeredConfig.Template

/-- A function that a template defines. -/
structure Routine where
  name : String
  parameters : List String
  /-- Whether its body asks for the name `caller`. -/
  asksCaller : Bool
  /-- Its place among the definitions of a run. -/
  place : Nat

/-- An item. -/
inductive Item where
  | undefined
  | null
  | bool (b : Bool)
  | natural (n : Nat)
  | int (i : Int)
  | float (x : Float)
  | text (s : String)
  | list (items : List Item)
  | stream (items : List Item)
  | map (entries : List (Item × Item))
  /-- The built-in function of a name. -/
  | function (name : String)
  | routine (r : Routine)
  /-- A loop of so many turns at one of them, counted from zero, with the items of
  the turns before and after it. -/
  | loop (turn turns : Nat) (previous next : Item)
  deriving Inhabited

namespace Item

/-- An item of one character. -/
def ofChar (c : Char) : Item :=
  text (String.singleton c)

/-- Whether the item is undefined. -/
def isUndefined : Item → Bool
  | undefined => true
  | _ => false

/-- Whether the item is undefined or null. -/
def isNothing : Item → Bool
  | undefined | null => true
  | _ => false

/-- Whether the item is a number. -/
def isNumber : Item → Bool
  | natural _ | int _ | float _ => true
  | _ => false

/-- Whether an item counts as true where a condition is asked for. -/
def isTrue : Item → Bool
  | undefined | null => false
  | bool b => b
  | natural n => n != 0
  | int i => i != 0
  | float x => x != 0
  | text s => !s.isEmpty
  | list items | stream items => !items.isEmpty
  | map entries => !entries.isEmpty
  | function _ | routine _ | loop .. => true

/-- The number of characters, items or entries. -/
def size? : Item → Option Nat
  | text s => some s.length
  | list items | stream items => some items.length
  | map entries => some entries.length
  | _ => none

/-- The parts of a list, or the keys of a mapping. -/
def parts? : Item → Option (List Item)
  | list items | stream items => some items
  | map entries => some (entries.map Prod.fst)
  | _ => none

/-- What a loop runs through: the characters of a text, the items of a list, the
keys of a mapping, and nothing at all where there is nothing. -/
def elements? : Item → Option (List Item)
  | undefined | null => some []
  | text s => some (s.toList.map ofChar)
  | item => item.parts?

/-- The text of an item that is no data. -/
def label? : Item → Option String
  | function name => some ("<function " ++ name ++ ">")
  | routine r => some ("<macro " ++ r.name ++ ">")
  | loop turn turns _ _ =>
    some ("<loop " ++ String.ofList (Decimal.naturalText turn) ++ "/" ++
      String.ofList (Decimal.naturalText turns) ++ ">")
  | _ => none

/-- The attribute of a routine or a loop. -/
def attribute? (name : String) : Item → Option Item
  | routine r =>
    if name = "name" then some (text r.name)
    else if name = "arguments" then some (list (r.parameters.map text))
    else if name = "caller" then some (bool r.asksCaller)
    else none
  | loop turn turns previous next =>
    if name = "index" then some (natural (turn + 1))
    else if name = "index0" then some (natural turn)
    else if name = "revindex" then some (natural (turns - turn))
    else if name = "revindex0" then some (natural (turns - turn - 1))
    else if name = "first" then some (bool (turn == 0))
    else if name = "last" then some (bool (turn + 1 == turns))
    else if name = "length" then some (natural turns)
    else if name = "depth" then some (natural 1)
    else if name = "depth0" then some (natural 0)
    else if name = "previtem" then some previous
    else if name = "nextitem" then some next
    else none
  | _ => none

end Item

end LayeredConfig.Template
