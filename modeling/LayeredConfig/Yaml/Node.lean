import LayeredConfig.Yaml.Lexer

/-!
# The nodes of a YAML document

A document is a tree of nodes: scalars, sequences, mappings, and aliases that
stand for a node with an anchor.  `document?` reads the one document of a text
from its tokens.

An anchor gets a number when its node starts: the count of the names that were
given to anchors before.  An alias stands for the node that got the number of
its name last, so a name may be given again.  Where a name was given twice, the
next new name gets the number of the second node.
-/

namespace LayeredConfig.Yaml

/-- The properties in front of a node. -/
structure Properties where
  /-- The number of the node's anchor. -/
  anchor : Option Nat
  /-- The tag with its handle replaced by the meaning of that. -/
  tag : Option (List Char)
  deriving DecidableEq, Repr, Inhabited

/-- A node. -/
inductive Node where
  | alias (anchor : Nat)
  | scalar (props : Properties) (text : List Char) (isPlain : Bool)
  | seq (props : Properties) (items : List Node)
  | map (props : Properties) (entries : List (Node × Node))
  deriving Inhabited, Repr

/-- The reader between two tokens: the tokens that are left, the numbers of the
anchor names, and the meanings of the tag handles. -/
structure Reader where
  rest : List Token
  anchors : List (List Char × Nat)
  handles : List (List Char × List Char)

namespace Reader

/-- The token that comes next. -/
def next (r : Reader) : Token :=
  r.rest.headD .streamEnd

/-- The reader behind the next token. -/
def skip (r : Reader) : Reader :=
  { r with rest := r.rest.drop 1 }

/-- A missing node counts as an empty plain scalar. -/
def missing : Node :=
  .scalar ⟨none, none⟩ [] true

/-- Numbers an anchor.  A name that is there already gets the new number too. -/
def number (r : Reader) (name : List Char) : Nat × Reader :=
  let n := r.anchors.length
  let others := r.anchors.filter fun entry => entry.1 != name
  (n, { r with anchors := others ++ [(name, n)] })

/-- The anchor name in front of a node. -/
def cutAnchor (r : Reader) : Option (List Char) × Reader :=
  match r.next with
  | .anchor name => (some name, r.skip)
  | _ => (none, r)

/-- The tag in front of a node, with its handle replaced.  An unknown handle is an
error. -/
def cutTag (r : Reader) : Option (Option (List Char) × Reader) :=
  match r.next with
  | .tag handle rest =>
    if handle.isEmpty then some (some rest, r.skip)
    else (r.handles.lookup handle).map fun meaning => (some (meaning ++ rest), r.skip)
  | _ => some (none, r)

/-- The anchor name and the tag in front of a node, in either order. -/
def cutProperties (r : Reader) : Option (Option (List Char) × Option (List Char) × Reader) :=
  match r.cutAnchor with
  | (some name, r) => r.cutTag.map fun (tag, r) => (some name, tag, r)
  | (none, r) =>
    r.cutTag.map fun (tag, r) =>
      if tag.isSome then
        let (name, r) := r.cutAnchor
        (name, tag, r)
      else (none, none, r)

/-- A tag that is only a mark says no more about a scalar than no tag. -/
def scalarTag (tag : Option (List Char)) : Option (List Char) :=
  if tag == some ['!'] then none else tag

/-- Where a node stands.  Outside flow collections block collections are nodes
too, and in a mapping a sequence need not be indented further. -/
inductive Context where
  | block | blockEntry | flow
  deriving DecidableEq, Repr

/-- A reader for one node in a context. -/
abbrev NodeReader := Context → Reader → Option (Node × Reader)

/-- Reads a node unless one of the given tokens comes next; then it is missing. -/
def nodeUnless (node : NodeReader) (ends : List Token) (context : Context) (r : Reader) :
    Option (Node × Reader) :=
  if ends.contains r.next then some (missing, r) else node context r

/-- The items of a block sequence.  One that is not indented further ends at the
first token that is not a dash. -/
def blockItems (node : NodeReader) (indented : Bool) : Nat → Reader → Option (List Node × Reader)
  | 0, _ => none
  | bound + 1, r =>
    match r.next with
    | .blockEntry => do
      let ends :=
        if indented then [.blockEntry, .blockEnd] else [.blockEntry, .key, .value, .blockEnd]
      let (item, r) ← nodeUnless node ends .block r.skip
      let (items, r) ← blockItems node indented bound r
      some (item :: items, r)
    | .blockEnd => if indented then some ([], r.skip) else some ([], r)
    | _ => if indented then none else some ([], r)

/-- The value of an entry in a block mapping. -/
def blockValue (node : NodeReader) (r : Reader) : Option (Node × Reader) :=
  match r.next with
  | .value => nodeUnless node [.key, .value, .blockEnd] .blockEntry r.skip
  | _ => some (missing, r)

/-- The entries of a block mapping. -/
def blockEntries (node : NodeReader) : Nat → Reader → Option (List (Node × Node) × Reader)
  | 0, _ => none
  | bound + 1, r =>
    match r.next with
    | .key => do
      let (key, r) ← nodeUnless node [.key, .value, .blockEnd] .blockEntry r.skip
      let (value, r) ← blockValue node r
      let (entries, r) ← blockEntries node bound r
      some ((key, value) :: entries, r)
    | .blockEnd => some ([], r.skip)
    | _ => none

/-- The value behind a key in a flow collection that ends with `closing`. -/
def flowValue (node : NodeReader) (closing : Token) (r : Reader) : Option (Node × Reader) :=
  match r.next with
  | .value => nodeUnless node [.flowEntry, closing] .flow r.skip
  | _ => some (missing, r)

/-- The comma between two parts of a flow collection. -/
def cutComma (first : Bool) (r : Reader) : Option Reader :=
  if first then some r else if r.next = .flowEntry then some r.skip else none

/-- A single entry that stands in a flow sequence, from behind its key indicator.
If the key is missing, the token in its place is dropped. -/
def pairItem (node : NodeReader) (r : Reader) : Option (Node × Reader) := do
  let (key, r) ←
    if [.value, .flowEntry, .flowSequenceEnd].contains r.next then some (missing, r.skip)
    else node .flow r
  let (value, r) ← flowValue node .flowSequenceEnd r
  some (.map ⟨none, none⟩ [(key, value)], r)

/-- The items of a flow sequence. -/
def flowItems (node : NodeReader) : Nat → Bool → Reader → Option (List Node × Reader)
  | 0, _, _ => none
  | bound + 1, first, r =>
    if r.next = .flowSequenceEnd then some ([], r.skip)
    else do
      let r ← cutComma first r
      match r.next with
      | .flowSequenceEnd => some ([], r.skip)
      | .key =>
        let (item, r) ← pairItem node r.skip
        let (items, r) ← flowItems node bound false r
        some (item :: items, r)
      | _ =>
        let (item, r) ← node .flow r
        let (items, r) ← flowItems node bound false r
        some (item :: items, r)

/-- The entries of a flow mapping.  A part without a key indicator is a key whose
value is missing. -/
def flowEntries (node : NodeReader) :
    Nat → Bool → Reader → Option (List (Node × Node) × Reader)
  | 0, _, _ => none
  | bound + 1, first, r =>
    if r.next = .flowMappingEnd then some ([], r.skip)
    else do
      let r ← cutComma first r
      match r.next with
      | .flowMappingEnd => some ([], r.skip)
      | .key =>
        let (key, r) ← nodeUnless node [.value, .flowEntry, .flowMappingEnd] .flow r.skip
        let (value, r) ← flowValue node .flowMappingEnd r
        let (entries, r) ← flowEntries node bound false r
        some ((key, value) :: entries, r)
      | _ =>
        let (key, r) ← node .flow r
        let (entries, r) ← flowEntries node bound false r
        some ((key, missing) :: entries, r)

/-- Reads the content of a node whose properties have been read. -/
def content (node : NodeReader) (context : Context) (props : Properties) (r : Reader) :
    Option (Node × Reader) :=
  let bound := r.rest.length + 1
  let inBlock := context ≠ .flow
  match r.next with
  | .scalar text isPlain =>
    some (.scalar { props with tag := scalarTag props.tag } text isPlain, r.skip)
  | .flowSequenceStart =>
    (flowItems node bound true r.skip).map fun (items, r) => (.seq props items, r)
  | .flowMappingStart =>
    (flowEntries node bound true r.skip).map fun (entries, r) => (.map props entries, r)
  | .blockSequenceStart =>
    if inBlock then
      (blockItems node true bound r.skip).map fun (items, r) => (.seq props items, r)
    else emptyContent props r
  | .blockMappingStart =>
    if inBlock then
      (blockEntries node bound r.skip).map fun (entries, r) => (.map props entries, r)
    else emptyContent props r
  | .blockEntry =>
    if context = .blockEntry then
      (blockItems node false bound r).map fun (items, r) => (.seq props items, r)
    else emptyContent props r
  | _ => emptyContent props r
where
  /-- A node may be left out behind its properties. -/
  emptyContent (props : Properties) (r : Reader) : Option (Node × Reader) :=
    if props.anchor.isSome || props.tag.isSome then some (.scalar props [] true, r) else none

/-- Reads a node.  Nodes nest no deeper than there are tokens. -/
def node : Nat → NodeReader
  | 0, _, _ => none
  | bound + 1, context, r =>
    match r.next with
    | .alias name => (r.anchors.lookup name).map fun n => (.alias n, r.skip)
    | _ => do
      let (name, tag, r) ← r.cutProperties
      match name with
      | some name =>
        let (n, r) := r.number name
        content (node bound) context ⟨some n, tag⟩ r
      | none => content (node bound) context ⟨none, tag⟩ r

/-- Reads the directives in front of a document: a version at most once, and each
tag handle at most once. -/
def directives : Nat → Bool → List (List Char) → Reader → Option Reader
  | 0, _, _, r => some r
  | bound + 1, versioned, named, r =>
    match r.next with
    | .version major minor =>
      if versioned || major ≠ 1 || (minor ≠ 1 && minor ≠ 2) then none
      else directives bound true named r.skip
    | .handle name meaning =>
      if named.contains name then none
      else directives bound versioned (name :: named)
        { r.skip with handles := (name, meaning) :: r.handles }
    | _ => some r

/-- The meanings of the two handles that every document knows. -/
def standardHandles : List (List Char × List Char) :=
  [(['!'], ['!']), (['!', '!'], "tag:yaml.org,2002:".toList)]

/-- Whether a token can only stand in front of a document. -/
def opensDocument (t : Token) : Bool :=
  match t with
  | .version _ _ | .handle _ _ | .documentStart => true
  | _ => false

/-- The root node of the first document; none in an empty text. -/
def root (r : Reader) : Option (Option Node × Reader) :=
  let bound := r.rest.length + 1
  if r.next = .streamEnd then some (none, r)
  else if opensDocument r.next then do
    let r ← directives bound false [] r
    if r.next ≠ .documentStart then none
    else
      let r := r.skip
      if opensDocument r.next || r.next = .documentEnd || r.next = .streamEnd then
        some (some missing, r)
      else (node bound .block r).map fun (n, r) => (some n, r)
  else (node bound .block r).map fun (n, r) => (some n, r)

end Reader

/-- The root node of the only document in a text; none in an empty text. -/
def document? (cs : List Char) : Option (Option Node) := do
  let tokens ← tokens? cs
  let (node, r) ← Reader.root ⟨tokens, [], Reader.standardHandles⟩
  if r.rest.dropWhile (· == .documentEnd) == [.streamEnd] then some node else none

end LayeredConfig.Yaml
