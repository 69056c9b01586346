import LayeredConfig.Error
import LayeredConfig.Json.Reader
import LayeredConfig.Text.Blank
import LayeredConfig.Yaml.Printer

/-!
# Document formats

A format reads a tree from a text and writes one.  Pages are YAML; exports are
JSON.  `Format.readMapping` asks for a mapping at the top of a document; a blank
text and a null are the empty mapping.
-/

namespace LayeredConfig

/-- A way to write trees as text. -/
structure Format where
  /-- The value of a text, if it follows the format. -/
  read? : String → Option Value
  /-- The text of a value, for people. -/
  write : Value → String

namespace Format

/-- YAML in block layout. -/
def yaml : Format := ⟨Yaml.read?, Yaml.write⟩

/-- JSON indented by four blanks. -/
def json : Format := ⟨Json.read?, Value.indentedJson⟩

/-- The value of a document. -/
def read (f : Format) (text : String) : Except Error Value :=
  match f.read? text with
  | some v => .ok v
  | none => .error (.source none .malformed)

/-- The mapping of a document. -/
def readMapping (f : Format) (text : String) : Except Error Mapping :=
  if Text.isBlankText text then .ok []
  else
    match f.read text with
    | .ok (.map entries) => .ok entries
    | .ok .null => .ok []
    | .ok v => .error (.source none (.notAMapping v.kind))
    | .error e => .error e

end Format

end LayeredConfig
