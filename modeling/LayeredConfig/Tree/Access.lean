import LayeredConfig.Path.Reader
import LayeredConfig.Tree.Edited

/-!
# Reading and writing along a path

A path leads from the root mapping through mappings by key and through
sequences by index.

* `Mapping.get?` reads a node, `Mapping.find?` does so for a path in text form;
* `Mapping.set` writes a node: keys create mappings on the way, indices must
  lead to an item that is there;
* `Mapping.remove` takes a node out, `Mapping.replace?` exchanges one that is
  there.

The root itself is not a node that these operations address.
-/

namespace LayeredConfig

/-- Why a node cannot be written. -/
inductive SetError where
  /-- The root mapping cannot be replaced. -/
  | root
  /-- The sequence at this place is too short. -/
  | outOfBounds (index length : Nat)
  /-- An index leads into something that is not a sequence. -/
  | notASequence (index : Nat) (found : Kind)
  deriving DecidableEq, Repr

/-- The wording of a write error. -/
def SetError.message : SetError → String
  | root => "cannot replace the root mapping"
  | outOfBounds index length => s!"index {index} out of bounds for length {length}"
  | notASequence index found => s!"index {index} applied to a {found.name}"

/-- A path that does not lead to a node that can be written, and why. -/
structure WriteFault where
  path : Path
  cause : SetError
  deriving DecidableEq, Repr

namespace Value

/-- The node at the end of a path that starts at this value. -/
def at? : Value → Path → Option Value
  | v, [] => some v
  | map entries, .key name :: rest =>
    match entries.lookup name with
    | some child => child.at? rest
    | none => none
  | seq items, .index i :: rest =>
    match items[i]? with
    | some child => child.at? rest
    | none => none
  | _, _ :: _ => none

/-- The entries that a key step of a write goes on with: those of a mapping,
and none where anything else is in the way. -/
def entriesOrNone : Value → Mapping
  | map entries => entries
  | _ => []

/-- Writes `new` at the end of a path that starts at this value. -/
def write : Value → Path → Value → Edited SetError Value
  | _, [], new => .done new
  | v, .key name :: rest, new =>
    let entries := v.entriesOrNone
    let child := (entries.lookup name).getD null
    (child.write rest new).map fun child => map (Mapping.insert entries name child)
  | seq items, .index i :: rest, new =>
    match items[i]? with
    | some child => (child.write rest new).map fun child => seq (items.set i child)
    | none => .stop (seq items) (.outOfBounds i items.length)
  | v, .index i :: _, _ => .stop v (.notASequence i v.kind)

/-- Takes out the node at the end of a path of at least one step. -/
def detach : Value → Path → Option Value × Value
  | map entries, [.key name] => (entries.lookup name, map (Mapping.erase entries name))
  | seq items, [.index i] => (items[i]?, seq (items.eraseIdx i))
  | map entries, .key name :: rest =>
    match entries.lookup name with
    | some child =>
      let (removed, child) := child.detach rest
      (removed, map (Mapping.insert entries name child))
    | none => (none, map entries)
  | seq items, .index i :: rest =>
    match items[i]? with
    | some child =>
      let (removed, child) := child.detach rest
      (removed, seq (items.set i child))
    | none => (none, seq items)
  | v, _ => (none, v)

/-- Exchanges the node at the end of a path, if it is there. -/
def exchange? : Value → Path → Value → Option (Value × Value)
  | v, [], new => some (v, new)
  | map entries, .key name :: rest, new =>
    match entries.lookup name with
    | some child =>
      (child.exchange? rest new).map fun (old, child) =>
        (old, map (Mapping.insert entries name child))
    | none => none
  | seq items, .index i :: rest, new =>
    match items[i]? with
    | some child =>
      (child.exchange? rest new).map fun (old, child) => (old, seq (items.set i child))
    | none => none
  | _, _ :: _, _ => none

end Value

namespace Mapping

/-- The node at a path; the root is not one. -/
def get? (tree : Mapping) (p : Path) : Option Value :=
  if p.isEmpty then none else (Value.map tree).at? p

/-- The node at a path in text form.  A text that is no path leads nowhere. -/
def find? (tree : Mapping) (path : String) : Option Value :=
  (Path.read? path).bind tree.get?

/-- Writes a node.  Keys create the mappings on the way, in place of whatever
else is there; an index must lead to an item that is there. -/
def set (tree : Mapping) (p : Path) (new : Value) : Edited WriteFault Mapping :=
  if p.isEmpty then .stop tree ⟨p, .root⟩
  else
    (((Value.map tree).write p new).map Value.entriesOrNone).mapFailure fun cause => ⟨p, cause⟩

/-- Takes out the node at a path.  The other entries keep their order. -/
def remove (tree : Mapping) (p : Path) : Option Value × Mapping :=
  let (removed, tree) := (Value.map tree).detach p
  (removed, tree.entriesOrNone)

/-- Exchanges the node at a path: the old node and the new tree, or nothing
where there is no such node. -/
def replace? (tree : Mapping) (p : Path) (new : Value) : Option (Value × Mapping) :=
  if p.isEmpty then none
  else ((Value.map tree).exchange? p new).map fun (old, tree) => (old, tree.entriesOrNone)

end Mapping

end LayeredConfig
