import LayeredConfig.Template.Number

/-!
# Equality and order of items

Items of one kind are ordered by what they hold, items of different kinds by
their kind.  Equality looks past the kind where numbers are concerned: one, one
point zero and true are all equal, and a stream equals a list of equal items.

* `Item.equal` and `Item.order` are the two relations;
* `Item.ofValue` turns a configuration value into an item;
* `Item.lookup?` finds the value of a key.
-/

namespace LayeredConfig.Template.Item

/-- The place of an item's kind in the order of kinds. -/
def kindRank : Item → Nat
  | undefined => 0
  | null => 1
  | bool _ => 2
  | natural _ | int _ | float _ => 3
  | text _ => 4
  | list _ => 5
  | map _ => 6
  | stream _ => 7
  | function _ | routine _ | loop .. => 8

/-- The order of two items of one kind without parts.  Numbers that cannot be
brought to one kind are ordered by their exact values. -/
def plainOrder (a b : Item) : Ordering :=
  match operands? true a b with
  | some (.whole i j) => compare i j
  | some (.float x y) => floatOrder x y
  | some (.text s t) => compare s t
  | none =>
    match a.label?, b.label? with
    | some s, some t => compare s t
    | _, _ => if a.isNumber && b.isNumber then numberOrder a b else .eq

/-- The equality of two items without parts. -/
def plainEqual (a b : Item) : Bool :=
  match operands? true a b with
  | some (.whole i j) => i == j
  | some (.float x y) => x == y
  | some (.text s t) => s == t
  | none =>
    match a, b with
    | undefined, undefined | null, null => true
    | a, b => a.label?.isSome && a.label? == b.label?

mutual

/-- The order of two items: by kind, then by what they hold. -/
def order : Item → Item → Ordering
  | list as, list bs => orderItems as bs
  | stream as, stream bs => orderItems as bs
  | map as, map bs => orderEntries as bs
  | a, b => (compare a.kindRank b.kindRank).then (plainOrder a b)

/-- The order of two lists: that of the first items that differ; a list comes
before its continuations. -/
def orderItems : List Item → List Item → Ordering
  | [], [] => .eq
  | [], _ :: _ => .lt
  | _ :: _, [] => .gt
  | a :: as, b :: bs => (order a b).then (orderItems as bs)

/-- The order of two mappings, entry by entry. -/
def orderEntries : List (Item × Item) → List (Item × Item) → Ordering
  | [], [] => .eq
  | [], _ :: _ => .lt
  | _ :: _, [] => .gt
  | (k, v) :: as, (l, w) :: bs => (order k l).then ((order v w).then (orderEntries as bs))

end

/-- The value of a key among entries. -/
def find? (entries : List (Item × Item)) (key : Item) : Option Item :=
  (entries.find? fun (k, _) => k.order key == .eq).map Prod.snd

mutual

/-- Whether two items are equal. -/
def equal : Item → Item → Bool
  | list as, list bs | list as, stream bs => equalItems as bs
  | stream as, list bs | stream as, stream bs => equalItems as bs
  | map as, map bs => as.length == bs.length && equalEntries as bs
  | a, b => plainEqual a b

/-- Whether two lists are equal, item by item. -/
def equalItems : List Item → List Item → Bool
  | [], [] => true
  | a :: as, b :: bs => equal a b && equalItems as bs
  | _, _ => false

/-- Whether every entry has an equal one under its key among `bs`. -/
def equalEntries : List (Item × Item) → List (Item × Item) → Bool
  | [], _ => true
  | (k, v) :: as, bs =>
    (match find? bs k with
      | some w => equal v w
      | none => false) && equalEntries as bs

end

/-- Writes an entry to its place in the order of keys, over one with its key. -/
def insertEntry (key value : Item) : List (Item × Item) → List (Item × Item)
  | [] => [(key, value)]
  | (k, v) :: rest =>
    match key.order k with
    | .lt => (key, value) :: (k, v) :: rest
    | .eq => (k, value) :: rest
    | .gt => (k, v) :: insertEntry key value rest

/-- Entries in the order of their keys; of a repeated key the last value counts. -/
def sortEntries (entries : List (Item × Item)) : List (Item × Item) :=
  entries.foldl (fun sorted (k, v) => insertEntry k v sorted) []

mutual

/-- The item of a configuration value. -/
def ofValue : Value → Item
  | .null => null
  | .bool b => bool b
  | .int i => int i.toInt
  | .float x => float x
  | .str s => text s
  | .seq items => list (ofItems items)
  | .map entries => map (sortEntries (ofEntries entries))

/-- The items of a sequence. -/
def ofItems : List Value → List Item
  | [] => []
  | v :: rest => ofValue v :: ofItems rest

/-- The entries of a mapping, with their keys. -/
def ofEntries : List (String × Value) → List (Item × Item)
  | [] => []
  | (key, v) :: rest => (text key, ofValue v) :: ofEntries rest

end

/-- The part at a place that a negative index counts from the end. -/
def atIndex (parts : List Item) (i : Int) : Item :=
  let place := if i < 0 then i + parts.length else i
  if place < 0 then undefined else (parts[place.toNat]?).getD undefined

/-- The part of an item under a key or at a place.  Where there is none it is
undefined, but nothing can be looked up in the undefined item. -/
def lookup? (item key : Item) : Option Item :=
  match item with
  | undefined => none
  | map entries => some ((find? entries key).getD undefined)
  | list items | stream items =>
    some (match key.toInt64? with
      | some i => atIndex items i
      | none => undefined)
  | text s =>
    some (match key.toInt64? with
      | some i => atIndex (s.toList.map ofChar) i
      | none => undefined)
  | item =>
    some (match key with
      | text name => (item.attribute? name).getD undefined
      | _ => undefined)

end LayeredConfig.Template.Item
