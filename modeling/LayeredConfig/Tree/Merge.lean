import LayeredConfig.Path.Basic
import LayeredConfig.Tree.Edited

/-!
# Merging one tree into another

A source tree is merged entry by entry into a destination.  Mappings merge
recursively, scalars overwrite, new keys go last, and a mapping may also take
the place of a null.  Sequences follow the strategy: they are appended to a
sequence, or they replace what is there.

The one conflict is a mapping that meets anything else.  The entries merged
before it stay merged.
-/

namespace LayeredConfig

/-- How a source sequence joins a value that is already there. -/
inductive MergeStrategy where
  /-- Its items are appended to a sequence; anything else keeps its place. -/
  | append
  /-- It takes the place of what is there. -/
  | replace
  deriving DecidableEq, Repr, Inhabited

/-- A mapping met a value of another kind at a path. -/
structure MergeConflict where
  path : Path
  found : Kind
  deriving DecidableEq, Repr

/-- The wording of a conflict, without its place. -/
def MergeConflict.message (c : MergeConflict) : String :=
  s!"cannot merge a mapping into a {c.found.name}"

/-- A source sequence joined to the value that is there. -/
def mergeItems (strategy : MergeStrategy) (items : List Value) (old : Value) : Value :=
  match strategy, old with
  | .replace, _ => .seq items
  | .append, .seq existing => .seq (existing ++ items)
  | .append, other => other

mutual

/-- Merges a source value into the value at the path `here`. -/
def mergeValue (strategy : MergeStrategy) (here : Path) :
    Value → Value → Edited MergeConflict Value
  | .map source, old =>
    match old with
    | .map entries => (mergeEntries strategy here source entries).map .map
    | .null => .done (.map source)
    | other => .stop other ⟨here, other.kind⟩
  | .seq items, old => .done (mergeItems strategy items old)
  | scalar, _ => .done scalar

/-- Merges source entries one after the other into the mapping at `here`. -/
def mergeEntries (strategy : MergeStrategy) (here : Path) :
    List (String × Value) → Mapping → Edited MergeConflict Mapping
  | [], dest => .done dest
  | (name, v) :: rest, dest =>
    match dest.lookup name with
    | none => mergeEntries strategy here rest (dest.insert name v)
    | some old =>
      ((mergeValue strategy (here ++ [.key name]) v old).map fun v => dest.insert name v).andThen
        (mergeEntries strategy here rest)

end

/-- Merges `source` into `dest`. -/
def Mapping.merge (strategy : MergeStrategy) (source dest : Mapping) :
    Edited MergeConflict Mapping :=
  mergeEntries strategy [] source dest

end LayeredConfig
