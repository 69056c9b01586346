import LayeredConfig.Placeholder.Scan
import LayeredConfig.Tree.Access

/-!
# Layers of data

Placeholders are looked up in an ordered list of layers, named snapshots of
data.  Resolving makes one pass a layer: a pass fills in what its layer knows
and leaves the other placeholders for the next one.  Only the last pass uses
the fallbacks of placeholders, and only it can find one unresolvable.

* `Layer.find?` looks a key up in one layer;
* `Resolver` is the list of layers with the switches of resolution;
* `Resolver.passes` marks the last layer.
-/

namespace LayeredConfig

/-- A named snapshot of data. -/
structure Layer where
  name : String
  data : Mapping

/-- The switches of resolution. -/
structure ResolverOptions where
  /-- Values that carry placeholders themselves are resolved again. -/
  nestedResolution : Bool
  /-- A placeholder that the last layer does not know is an error. -/
  failOnUnresolvable : Bool
  /-- Placeholders in the keys of mappings are resolved. -/
  keyResolution : Bool
  deriving DecidableEq, Repr

/-- One pass over the data of a layer. -/
structure Pass where
  layer : Layer
  /-- Whether no further layer follows. -/
  last : Bool

/-- The layers, the earlier ones first, and the switches. -/
structure Resolver where
  layers : List Layer
  options : ResolverOptions

/-- The data at a key's path.  Null counts as absent, and so does everything
under a path that cannot be read. -/
def Layer.find? (layer : Layer) (path : String) : Option Value :=
  Value.nonNull? (layer.data.find? path)

/-- What a pass puts in the place of a key's placeholder: the layer's value, or
in the last pass the fallback of a key whose path can be read. -/
def Pass.find? (pass : Pass) (key : String) : Option Value :=
  let (path, fallback) := Placeholder.splitDefault key
  match pass.layer.find? path with
  | some found => some found
  | none =>
    if pass.last && (Path.read? path).isSome then fallback.map .str else none

/-- The passes over layers, the final one marked. -/
def passesOf : List Layer → List Pass
  | [] => []
  | [layer] => [⟨layer, true⟩]
  | layer :: rest => ⟨layer, false⟩ :: passesOf rest

namespace Resolver

/-- The passes of a resolver. -/
def passes (r : Resolver) : List Pass :=
  passesOf r.layers

/-- A resolver with a further layer behind the others. -/
def addLayer (r : Resolver) (layer : Layer) : Resolver :=
  { r with layers := r.layers ++ [layer] }

/-- A resolver without layers. -/
def clearLayers (r : Resolver) : Resolver :=
  { r with layers := [] }

/-- A resolver with one layer of data. -/
def single (options : ResolverOptions) (name : String) (data : Mapping) : Resolver :=
  ⟨[⟨name, data⟩], options⟩

end Resolver

end LayeredConfig
