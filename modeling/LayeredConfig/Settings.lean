import LayeredConfig.Json.Skip
import LayeredConfig.Resolve.Layers

/-!
# Settings of a compilation

Settings are read from JSON: an object whose fields are the switches by name, or
an array with the fields in order.  Fields that are left out keep their default,
fields of other names mean nothing, and a field that is given twice or with a
value of another kind is an error.
-/

namespace LayeredConfig

/-- The settings of a compilation. -/
structure Settings where
  /-- A placeholder that stays unresolved is an error. -/
  failOnUnresolvable : Bool
  /-- Values that carry placeholders themselves are resolved again. -/
  nestedResolution : Bool
  /-- Placeholders in keys are resolved. -/
  keyResolution : Bool
  /-- Values that still hold placeholders at the end become null. -/
  nullUnresolved : Bool
  /-- The line that separates pages. -/
  pageSeparator : String
  deriving DecidableEq, Repr

namespace Settings

/-- The settings of a compilation that asks for nothing special. -/
def standard : Settings :=
  { failOnUnresolvable := false
    nestedResolution := true
    keyResolution := false
    nullUnresolved := false
    pageSeparator := "---" }

/-- The names of the fields, in order. -/
def fieldNames : List String :=
  ["fail_on_unresolvable", "nested_resolution", "key_resolution", "null_unresolved",
    "page_separator"]

/-- Sets a field by name.  A value of another kind is an error. -/
def setField (s : Settings) (name : String) (value : Value) : Option Settings :=
  match name, value with
  | "fail_on_unresolvable", .bool b => some { s with failOnUnresolvable := b }
  | "nested_resolution", .bool b => some { s with nestedResolution := b }
  | "key_resolution", .bool b => some { s with keyResolution := b }
  | "null_unresolved", .bool b => some { s with nullUnresolved := b }
  | "page_separator", .str text => some { s with pageSeparator := text }
  | _, _ => none

/-- Sets fields to values, one after the other. -/
def setFields (fields : List (String × Value)) : Option Settings :=
  fields.foldlM (fun s (name, value) => s.setField name value) standard

/-- The settings that a list of fields in the order of the text describes. -/
def ofFields (fields : List (String × Value)) : Option Settings :=
  let names := fields.map Prod.fst
  if names.eraseDups.length < names.length then none else setFields fields

/-- The settings that a list of values in the order of the fields describes. -/
def ofItems (items : List Value) : Option Settings :=
  if fieldNames.length < items.length then none else setFields (fieldNames.zip items)

/-- Reads a value, in which containers are nested one level less deep. -/
def readValue (cs : List Char) : Option (Value × List Char) :=
  Json.value? (Json.nestingLimit - 1) cs

/-- Reads the value of a field, and passes over that of a field of another name. -/
def readField (name : String) (cs : List Char) : Option (Option Value × List Char) :=
  if fieldNames.contains name then (readValue cs).map fun (v, rest) => (some v, rest)
  else (Json.skip? cs).map (none, ·)

/-- The settings that the top of a text describes, and what stands behind it. -/
def readTop (cs : List Char) : Option (Option Settings × List Char) :=
  match Json.skipSpace cs with
  | '{' :: rest =>
    (Json.container (Json.entry readField) '}' rest).map fun (fields, rest) =>
      (ofFields (fields.filterMap fun (name, v) => v.map (name, ·)), rest)
  | '[' :: rest =>
    (Json.container readValue ']' rest).map fun (items, rest) => (ofItems items, rest)
  | _ => none

/-- Reads settings. -/
def read? (text : String) : Option Settings := do
  let (settings, rest) ← readTop text.toList
  if (Json.skipSpace rest).isEmpty then settings else none

/-- The switches of resolution among the settings. -/
def resolverOptions (s : Settings) : ResolverOptions :=
  { nestedResolution := s.nestedResolution
    failOnUnresolvable := s.failOnUnresolvable
    keyResolution := s.keyResolution }

end Settings

end LayeredConfig
