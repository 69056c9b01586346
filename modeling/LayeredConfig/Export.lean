import LayeredConfig.Format
import LayeredConfig.Override.Overrides

/-!
# Exports

An export is a compiled tree as indented JSON, together with fields about the run
under the top-level key `meta`.  Read back as the prior export of a later run it
chains the two.
-/

namespace LayeredConfig

/-- The top-level key of the fields about a run. -/
def metaKey : String := "meta"

/-- The field that records the overrides of a run. -/
def overridesField : String := "overrides"

/-- Fields about a run. -/
abbrev MetaFields := Mapping

/-- The tokens of the overrides, joined by single blanks, as a field. -/
def MetaFields.ofOverrides (o : Overrides) : MetaFields :=
  [(overridesField, .str (" ".intercalate o.tokens))]

/-- Writes fields about a run into a tree, over fields of the same name. -/
def Mapping.includeMeta (tree : Mapping) (fields : MetaFields) : Edited MergeConflict Mapping :=
  Mapping.merge .replace [(metaKey, .map fields)] tree

/-- The text of an export. -/
def renderExport (tree : Mapping) : String :=
  Format.json.write (.map tree)

/-- Reads an export. -/
def loadExport (text : String) : Except Error Mapping :=
  Format.json.readMapping text

end LayeredConfig
