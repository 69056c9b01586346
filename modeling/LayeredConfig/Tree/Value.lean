/-!
# The configuration tree

A configuration page, the running configuration and every layer that
placeholders are looked up in are mappings of values.  A mapping keeps the
order in which its keys were first written, because every printed form shows
that order; so it is a list of entries and not a hashed table.

The type admits lists with a repeated key.  `Value.WellFormed` says that no
mapping in a value has one; every operation of the library keeps it, and a
lookup reads the first entry of a key in any case.

* `Value`, `Mapping` and `Kind` are the data;
* `Mapping.insert`, `Mapping.erase` and `Mapping.place` are the edits of one
  mapping, next to `List.lookup`, which reads it.
-/

namespace LayeredConfig

/-- A node of a configuration tree. -/
inductive Value where
  | null
  | bool (b : Bool)
  | int (i : Int64)
  | float (x : Float)
  | str (text : String)
  | seq (items : List Value)
  | map (entries : List (String × Value))
  deriving Inhabited

/-- An ordered mapping from keys to values. -/
abbrev Mapping := List (String × Value)

/-- What sort of node a value is. -/
inductive Kind where
  | null | bool | integer | float | string | sequence | mapping
  deriving DecidableEq, Repr, Inhabited

/-- The name of a kind in messages. -/
def Kind.name : Kind → String
  | .null => "null"
  | .bool => "bool"
  | .integer => "integer"
  | .float => "float"
  | .string => "string"
  | .sequence => "sequence"
  | .mapping => "mapping"

namespace Value

/-- The kind of a value. -/
def kind : Value → Kind
  | null => .null
  | bool _ => .bool
  | int _ => .integer
  | float _ => .float
  | str _ => .string
  | seq _ => .sequence
  | map _ => .mapping

/-- Whether the value is null. -/
def isNull : Value → Bool
  | null => true
  | _ => false

/-- Whether the value is a sequence or a mapping. -/
def isComposite : Value → Bool
  | seq _ | map _ => true
  | _ => false

/-- The text of a string value. -/
def asString? : Value → Option String
  | str text => some text
  | _ => none

/-- The entries of a mapping value. -/
def asMapping? : Value → Option Mapping
  | map entries => some entries
  | _ => none

/-- A value that counts as present: null is the same as absent. -/
def nonNull? (v : Option Value) : Option Value :=
  v.filter fun v => !v.isNull

end Value

namespace Mapping

/-- Whether the mapping has an entry with the key. -/
def hasKey (m : Mapping) (key : String) : Bool :=
  m.any fun entry => entry.1 == key

/-- The keys in order. -/
def keys (m : Mapping) : List String :=
  m.map Prod.fst

/-- Writes a value under a key: in place if the key is there, else at the end. -/
def insert (m : Mapping) (key : String) (value : Value) : Mapping :=
  match m with
  | [] => [(key, value)]
  | (k, v) :: rest =>
    if k = key then (k, value) :: rest else (k, v) :: insert rest key value

/-- Removes the entry of a key; the others keep their order. -/
def erase (m : Mapping) (key : String) : Mapping :=
  match m with
  | [] => []
  | (k, v) :: rest => if k = key then rest else (k, v) :: erase rest key

/-- Puts a new entry before the one at `index`, or at the end. -/
def place (m : Mapping) (index : Nat) (key : String) (value : Value) : Mapping :=
  m.take index ++ (key, value) :: m.drop index

end Mapping

mutual

/-- No mapping inside the value holds a key twice. -/
def Value.WellFormed : Value → Prop
  | .seq items => Value.WellFormedItems items
  | .map entries => (entries.map Prod.fst).Nodup ∧ Value.WellFormedEntries entries
  | _ => True

/-- Every item of a sequence is well formed. -/
def Value.WellFormedItems : List Value → Prop
  | [] => True
  | v :: rest => v.WellFormed ∧ Value.WellFormedItems rest

/-- Every value of a mapping is well formed. -/
def Value.WellFormedEntries : List (String × Value) → Prop
  | [] => True
  | (_, v) :: rest => v.WellFormed ∧ Value.WellFormedEntries rest

end

end LayeredConfig
