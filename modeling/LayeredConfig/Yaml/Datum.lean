import LayeredConfig.Decimal.Numeral
import LayeredConfig.Json.Printer
import LayeredConfig.Json.Reader
import LayeredConfig.Yaml.Node

/-!
# The data of a YAML document

Nodes become data in the core schema: a plain scalar without a tag is null, a
boolean, an integer, a float or a string by its spelling, and every other scalar
is a string.  A tag of the standard asks for one of these kinds; a tag of another
origin names the datum without changing it.

Keys may be data of any kind and must differ as such.  A tree has only strings as
keys, so `Datum.toValue` writes other keys out; keys that become equal by that
keep the place of the first and the value of the last.

* `plainDatum` gives a spelling its kind;
* `Node.datum?` follows aliases and checks keys;
* `read?` is the value of a whole document.
-/

namespace LayeredConfig.Yaml

/-- A datum.  Integers reach from the least signed to the largest unsigned one of
64 bits. -/
inductive Datum where
  | null
  | bool (b : Bool)
  | int (i : Int)
  | float (x : Float)
  | str (text : String)
  | seq (items : List Datum)
  | map (entries : List (Datum × Datum))
  | tagged (tag : String) (datum : Datum)
  deriving Inhabited

/-- Whether a spelling stands for null. -/
def isNullWord (text : String) : Bool :=
  ["null", "Null", "NULL", "~"].contains text

/-- The boolean that a spelling stands for. -/
def boolWord? (text : String) : Option Bool :=
  if ["true", "True", "TRUE"].contains text then some true
  else if ["false", "False", "FALSE"].contains text then some false
  else none

/-- The number written in digits of a base. -/
def digits? (base : Nat) (cs : List Char) : Option Nat :=
  if cs.isEmpty then none
  else
    cs.foldlM (fun n c => do
      let d ← Text.hexValue? c
      if d < base then some (base * n + d) else none) 0

/-- Digits behind a superfluous leading zero are not a number. -/
def hasLeadingZero (cs : List Char) : Bool :=
  match (Decimal.cutSign cs).2 with
  | '0' :: d :: rest => (d :: rest).all Char.isDigit
  | _ => false

/-- The base that a numeral without sign announces, and its digits. -/
def cutBase : List Char → Option (Nat × List Char)
  | '0' :: 'x' :: rest => some (16, rest)
  | '0' :: 'o' :: rest => some (8, rest)
  | '0' :: 'b' :: rest => some (2, rest)
  | _ => none

/-- The whole number that a spelling stands for, of any size. -/
def whole? (cs : List Char) : Option Int :=
  let (negative, rest) := Decimal.cutSign cs
  let magnitude :=
    match cutBase rest with
    | some (base, rest) => digits? base rest
    | none => if hasLeadingZero cs then none else digits? 10 rest
  magnitude.map (Decimal.signed negative)

/-- The float that a spelling stands for. -/
def floatWord? (text : String) : Option Float :=
  let (negative, rest) := Decimal.cutSign text.toList
  if [".inf", ".Inf", ".INF"].contains (String.ofList rest) then some (Decimal.infinite negative)
  else if [".nan", ".NaN", ".NAN"].contains text then some Decimal.notANumber
  else (Decimal.float? text).filter Float.isFinite

/-- What the spelling of a whole number stands for.  Beyond 64 bits it is refused
as long as it fits 128 bits, and is not read as a whole number after that. -/
inductive WholeReading where
  | integer (i : Int)
  | refused
  | other

/-- Reads the spelling of a whole number. -/
def wholeReading (cs : List Char) : WholeReading :=
  match whole? cs with
  | none => .other
  | some i =>
    if -Int.pow 2 63 ≤ i ∧ i < Int.pow 2 64 then .integer i
    else if -Int.pow 2 127 ≤ i ∧ i < Int.pow 2 128 then .refused
    else .other

/-- The datum that a plain scalar without a tag stands for. -/
def plainDatum (text : String) : Option Datum :=
  if text.isEmpty || isNullWord text then some .null
  else
    match boolWord? text with
    | some b => some (.bool b)
    | none =>
      match wholeReading text.toList with
      | .integer i => some (.int i)
      | .refused => none
      | .other =>
        let float := if hasLeadingZero text.toList then none else floatWord? text
        match float with
        | some x => some (.float x)
        | none => some (.str text)

/-- The tag that the standard gives a kind of scalar. -/
def standardTag (kind : String) : List Char :=
  ("tag:yaml.org,2002:" ++ kind).toList

/-- The datum of a scalar.  A tag of the document's own leaves the choice to the
spelling, as far as the scalar is plain. -/
def scalarDatum (tag : Option (List Char)) (text : String) (isPlain : Bool) : Option Datum :=
  let bySpelling := if isPlain then plainDatum text else some (.str text)
  match tag with
  | none => bySpelling
  | some ('!' :: _) => bySpelling
  | some tag =>
    if tag == standardTag "bool" then (boolWord? text).map .bool
    else if tag == standardTag "int" then
      match wholeReading text.toList with
      | .integer i => some (.int i)
      | _ => none
    else if tag == standardTag "float" then (floatWord? text).map .float
    else if tag == standardTag "null" then if isNullWord text then some .null else none
    else some (.str text)

/-- Names a datum by a tag of the document's own, a mark and a name.  The mark alone
is no name. -/
def named? (tag : Option (List Char)) (d : Datum) : Option Datum :=
  match tag with
  | some ['!'] => none
  | some ('!' :: name) => some (.tagged (String.ofList name) d)
  | _ => some d

/-- Whether two floats are equal as keys: by value, and none from not-a-number to
itself. -/
def sameFloat (x y : Float) : Bool :=
  x == y || (x.isNaN && y.isNaN)

mutual

/-- Whether two data are equal as keys.  The order of a mapping does not count. -/
def Datum.same : Datum → Datum → Bool
  | .null, .null => true
  | .bool a, .bool b => a == b
  | .int i, .int j => i == j
  | .float x, .float y => sameFloat x y
  | .str s, .str t => s == t
  | .seq xs, .seq ys => Datum.sameItems xs ys
  | .map xs, .map ys => xs.length == ys.length && Datum.sameEntries xs ys
  | .tagged s x, .tagged t y => s == t && x.same y
  | _, _ => false

/-- Whether two sequences have equal items. -/
def Datum.sameItems : List Datum → List Datum → Bool
  | [], [] => true
  | x :: xs, y :: ys => x.same y && Datum.sameItems xs ys
  | _, _ => false

/-- Whether every entry is among the entries of another mapping. -/
def Datum.sameEntries : List (Datum × Datum) → List (Datum × Datum) → Bool
  | [], _ => true
  | (k, v) :: xs, ys => ys.any (fun (l, w) => k.same l && v.same w) && Datum.sameEntries xs ys

end

mutual

/-- The number of starts and ends of nodes in a node. -/
def Node.events : Node → Nat
  | .alias _ => 1
  | .scalar _ _ _ => 1
  | .seq _ items => 2 + Node.eventsOfItems items
  | .map _ entries => 2 + Node.eventsOfEntries entries

/-- The number of starts and ends in the items of a sequence. -/
def Node.eventsOfItems : List Node → Nat
  | [] => 0
  | n :: rest => n.events + Node.eventsOfItems rest

/-- The number of starts and ends in the entries of a mapping. -/
def Node.eventsOfEntries : List (Node × Node) → Nat
  | [] => 0
  | (k, v) :: rest => k.events + v.events + Node.eventsOfEntries rest

end

/-- The properties of a node. -/
def Node.props : Node → Properties
  | .alias _ => ⟨none, none⟩
  | .scalar props _ _ => props
  | .seq props _ => props
  | .map props _ => props

mutual

/-- The nodes with an anchor inside a node, by number, in document order. -/
def Node.anchored : Node → List (Nat × Node)
  | .alias _ => []
  | .scalar props text isPlain => props.anchor.toList.map (·, .scalar props text isPlain)
  | .seq props items =>
    props.anchor.toList.map (·, .seq props items) ++ Node.anchoredItems items
  | .map props entries =>
    props.anchor.toList.map (·, .map props entries) ++ Node.anchoredEntries entries

/-- The nodes with an anchor inside items. -/
def Node.anchoredItems : List Node → List (Nat × Node)
  | [] => []
  | n :: rest => n.anchored ++ Node.anchoredItems rest

/-- The nodes with an anchor inside entries. -/
def Node.anchoredEntries : List (Node × Node) → List (Nat × Node)
  | [] => []
  | (k, v) :: rest => k.anchored ++ v.anchored ++ Node.anchoredEntries rest

end

/-- The number of containers of a document that may be open at once. -/
def nestingLimit : Nat := 128

/-- What aliases stand for, and how many of them may be followed. -/
structure Aliases where
  targets : List (Nat × Node)
  limit : Nat

/-- The node that an alias stands for, or the node itself.  `followed` counts the
aliases that were followed before. -/
def Aliases.follow (a : Aliases) (n : Node) (followed : Nat) : Option (Node × Nat) :=
  match n with
  | .alias anchor =>
    if followed + 1 ≤ a.limit then
      (a.targets.reverse.lookup anchor).map (·, followed + 1)
    else none
  | n => some (n, followed)

/-- Adds an entry to those of a mapping, unless its key is there. -/
def addEntry (entries : List (Datum × Datum)) (key value : Datum) :
    Option (List (Datum × Datum)) :=
  if entries.any fun entry => entry.1.same key then none else some (entries ++ [(key, value)])

/-- The datum of a node, inside which `nesting` more containers may be opened, and
the number of aliases followed so far. -/
def Node.datum? (a : Aliases) : Nat → Node → Nat → Option (Datum × Nat)
  | nesting, n, followed => do
    let (n, followed) ← a.follow n followed
    match n, nesting with
    | .scalar props text isPlain, _ =>
      let d ← scalarDatum props.tag (String.ofList text) isPlain
      let d ← named? props.tag d
      some (d, followed)
    | .seq props items, nesting + 1 =>
      let (items, followed) ← items.foldlM (fun (items, followed) item => do
        let (d, followed) ← Node.datum? a nesting item followed
        some (items ++ [d], followed)) ([], followed)
      let d ← named? props.tag (.seq items)
      some (d, followed)
    | .map props entries, nesting + 1 =>
      let (entries, followed) ← entries.foldlM (fun (entries, followed) (key, value) => do
        let (k, followed) ← Node.datum? a nesting key followed
        let (v, followed) ← Node.datum? a nesting value followed
        let entries ← addEntry entries k v
        some (entries, followed)) ([], followed)
      let d ← named? props.tag (.map entries)
      some (d, followed)
    | _, _ => none

mutual

/-- A datum as a tree value.  Integers beyond the signed 64-bit range become
floats, tags are dropped, and keys are written out. -/
def Datum.toValue : Datum → Value
  | .null => .null
  | .bool b => .bool b
  | .int i =>
    match Decimal.int64? i with
    | some i => .int i
    | none => .float (Decimal.ofDecimal (i < 0) i.natAbs 0)
  | .float x => .float x
  | .str text => .str text
  | .seq items => .seq (Datum.itemValues items)
  | .map entries => .map (Json.mappingOf (Datum.entryValues entries))
  | .tagged _ d => d.toValue

/-- The items of a sequence as tree values. -/
def Datum.itemValues : List Datum → List Value
  | [] => []
  | d :: rest => d.toValue :: Datum.itemValues rest

/-- The entries of a mapping as tree values under text keys. -/
def Datum.entryValues : List (Datum × Datum) → List (String × Value)
  | [] => []
  | (k, v) :: rest => (k.toValue.toText, v.toValue) :: Datum.entryValues rest

end

/-- The value of a YAML document, if the text is one. -/
def read? (text : String) : Option Value := do
  match ← document? text.toList with
  | none => some .null
  | some root =>
    let aliases : Aliases := ⟨root.anchored, 100 * root.events⟩
    let (d, _) ← Node.datum? aliases nestingLimit root 0
    some d.toValue

end LayeredConfig.Yaml
