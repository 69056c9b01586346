import LayeredConfig.Decimal.Digits

/-!
# Locations in a tree

A path is the list of steps from the root mapping down to a node.  It is
written in two notations: dotted, as in `a.b[2]`, and from the root, as in
`/a/b[2]`.  `LayeredConfig.Path.Reader` reads both.

* `Path.dotted` puts a point before a key unless it opens the text;
* `Path.rooted` puts a slash before every key, and writes the root as `/`;
* `Path.ancestor` goes up a number of levels and stops at the root.
-/

namespace LayeredConfig

/-- One step of a path: into a mapping by key, or into a sequence by index. -/
inductive Segment where
  | key (name : String)
  | index (i : Nat)
  deriving DecidableEq, Repr, Inhabited

/-- The steps from the root mapping to a node.  The empty path is the root. -/
abbrev Path := List Segment

namespace Path

/-- An index as it is written. -/
def indexText (i : Nat) : List Char :=
  '[' :: Decimal.naturalText i ++ [']']

/-- The dotted notation of the steps after the text `before`. -/
def dottedFrom (before : List Char) : Path → List Char
  | [] => before
  | .key name :: rest =>
    let joint := if before.isEmpty then [] else ['.']
    dottedFrom (before ++ joint ++ name.toList) rest
  | .index i :: rest => dottedFrom (before ++ indexText i) rest

/-- The dotted notation, `a.b[2]`. -/
def dotted (p : Path) : String :=
  String.ofList (dottedFrom [] p)

/-- One step in root notation. -/
def rootedStep : Segment → List Char
  | .key name => '/' :: name.toList
  | .index i => indexText i

/-- The notation from the root, `/a/b[2]`. -/
def rooted (p : Path) : String :=
  if p.isEmpty then "/" else String.ofList (p.flatMap rootedStep)

/-- The path without its last `levels` steps. -/
def ancestor (p : Path) (levels : Nat) : Path :=
  p.take (p.length - levels)

end Path

end LayeredConfig
