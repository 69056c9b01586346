import LayeredConfig.Path.Basic
import LayeredConfig.Tree.Value

/-!
# The leaves of a tree

`Mapping.leaves` lists every scalar of a tree with its path, in document order.
`Value.mapText` changes the string leaves and nothing else.
-/

namespace LayeredConfig

mutual

/-- The leaves of a value, with their paths after `here`. -/
def Value.leavesFrom (here : Path) : Value → List (Path × Value)
  | .seq items => Value.leavesOfItems here 0 items
  | .map entries => Value.leavesOfEntries here entries
  | v => [(here, v)]

/-- The leaves of the items of a sequence from index `i` on. -/
def Value.leavesOfItems (here : Path) (i : Nat) : List Value → List (Path × Value)
  | [] => []
  | v :: rest => v.leavesFrom (here ++ [.index i]) ++ Value.leavesOfItems here (i + 1) rest

/-- The leaves of the entries of a mapping. -/
def Value.leavesOfEntries (here : Path) : List (String × Value) → List (Path × Value)
  | [] => []
  | (name, v) :: rest =>
    v.leavesFrom (here ++ [.key name]) ++ Value.leavesOfEntries here rest

end

/-- Every scalar of a tree with its path, in document order. -/
def Mapping.leaves (tree : Mapping) : List (Path × Value) :=
  Value.leavesOfEntries [] tree

mutual

/-- The value with every string leaf replaced; keys and shape stay. -/
def Value.mapText (f : String → Value) : Value → Value
  | .str text => f text
  | .seq items => .seq (Value.mapTextItems f items)
  | .map entries => .map (Value.mapTextEntries f entries)
  | v => v

/-- The items of a sequence with every string leaf replaced. -/
def Value.mapTextItems (f : String → Value) : List Value → List Value
  | [] => []
  | v :: rest => v.mapText f :: Value.mapTextItems f rest

/-- The entries of a mapping with every string leaf replaced. -/
def Value.mapTextEntries (f : String → Value) :
    List (String × Value) → List (String × Value)
  | [] => []
  | (name, v) :: rest => (name, v.mapText f) :: Value.mapTextEntries f rest

end

end LayeredConfig
