import LayeredConfig.Placeholder.Scan
import LayeredConfig.Tree.Walk

/-!
# What stays unresolved

Placeholders that no layer knows stay in the tree.  `Mapping.unresolved` lists
them with the paths of the strings that hold them, and
`Mapping.clearUnresolved` puts null in the place of those strings.  Keys are left
alone by both.
-/

namespace LayeredConfig

/-- The placeholders still in a tree, with the paths of the strings holding them. -/
def Mapping.unresolved (tree : Mapping) : List (Path × String) :=
  tree.leaves.flatMap fun (p, v) =>
    match v with
    | .str text => (Placeholder.keys text).map fun key => (p, Placeholder.wrap key)
    | _ => []

/-- Null in the place of a text that holds a placeholder. -/
def clearText (text : String) : Value :=
  if Placeholder.contains text then .null else .str text

/-- The tree with null in the place of every string that holds a placeholder. -/
def Mapping.clearUnresolved (tree : Mapping) : Mapping :=
  Value.mapTextEntries clearText tree

end LayeredConfig
