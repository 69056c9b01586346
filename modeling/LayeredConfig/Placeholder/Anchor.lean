import LayeredConfig.Tree.Access
import LayeredConfig.Tree.Walk

/-!
# Anchoring relative placeholders

A placeholder may name its target from where it stands.  For a string leaf at
`/a/b/leaf` the container is `/a/b`, and

* `${name}` means `${/a/b/name}`,
* `${../name}` means `${/a/name}`, each further `../` going up one more level
  and stopping at the root,
* `${/x/y}` names its target from the root already.

Anchoring brings the first two forms to the third, so that a layer can look up
all placeholders in the same way.  It concerns every `${` that is closed later in
the text and not directly followed by `/` or `}`, the outer ones of nested
placeholders included.

* `anchored?` anchors the text of one leaf;
* `Mapping.anchor` collects the leaves that change and then writes them back by
  path, so that the collection never meets its own edits.  What comes of it is an
  edit together with the number of those leaves (`Mapping.Anchoring`).
-/

namespace LayeredConfig.Placeholder

/-- Whether a text closes the last of the `depth` braces opened before it. -/
def closes (depth : Nat) : List Char → Bool
  | '$' :: '{' :: rest => closes (depth + 1) rest
  | '}' :: rest => depth ≤ 1 || closes (depth - 1) rest
  | _ :: rest => closes depth rest
  | [] => false

/-- Whether the text after a `${` makes it a relative reference: it is closed,
and starts neither with a slash nor with the closing brace. -/
def isRelative (rest : List Char) : Bool :=
  rest.head? != some '/' && rest.head? != some '}' && closes 1 rest

/-- Whether a text holds a relative reference. -/
def hasRelative : List Char → Bool
  | '$' :: '{' :: rest => isRelative rest || hasRelative rest
  | _ :: rest => hasRelative rest
  | [] => false

/-- The number of steps to the parent, `../`, that a text starts with. -/
def parentSteps : List Char → Nat
  | '.' :: '.' :: '/' :: rest => parentSteps rest + 1
  | _ => 0

/-- The reference to a container: its root notation with a slash at the end. -/
def containerText (container : Path) : List Char :=
  container.flatMap Path.rootedStep ++ ['/']

/-- Anchors the relative references of a text, of which the first `skip`
characters are left out. -/
def anchorFrom (container : Path) : Nat → List Char → List Char
  | _, [] => []
  | skip + 1, _ :: rest => anchorFrom container skip rest
  | 0, '$' :: '{' :: rest =>
    if isRelative rest then
      let steps := parentSteps rest
      '$' :: '{' :: containerText (container.ancestor steps) ++
        anchorFrom container (3 * steps) rest
    else '$' :: '{' :: anchorFrom container 0 rest
  | 0, c :: rest => c :: anchorFrom container 0 rest

/-- The anchored form of a leaf's text, if it holds a relative reference. -/
def anchored? (container : Path) (text : String) : Option String :=
  if hasRelative text.toList then
    some (String.ofList (anchorFrom container 0 text.toList))
  else none

end LayeredConfig.Placeholder

namespace LayeredConfig.Mapping

/-- The leaves that anchoring changes, with their new texts. -/
def relativeLeaves (tree : Mapping) : List (Path × String) :=
  tree.leaves.filterMap fun (p, v) =>
    match v with
    | .str text => (Placeholder.anchored? p.dropLast text).map (p, ·)
    | _ => none

/-- What anchoring a tree comes to: the edit, and the number of leaves that it
rewrites, which is reported only of an edit that finished. -/
structure Anchoring extends Edited WriteFault Mapping where
  rewritten : Nat

instance : Coe Anchoring (Edited WriteFault Mapping) where
  coe := Anchoring.toEdited

/-- Anchors every relative placeholder in a tree. -/
def anchor (tree : Mapping) : Anchoring where
  toEdited := Edited.foldl (fun tree (p, text) => tree.set p (.str text)) tree tree.relativeLeaves
  rewritten := tree.relativeLeaves.length

end LayeredConfig.Mapping
