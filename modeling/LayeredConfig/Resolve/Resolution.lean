import LayeredConfig.Json.Printer
import LayeredConfig.Resolve.Layers

/-!
# Resolving placeholders

A text is resolved against one pass in three steps: placeholders nested in the
text of others are collapsed to their values, the remaining keys are looked up
one after the other, and what is found is expanded before it is put in.  A text
that is exactly one placeholder takes the value as it is; inside a larger text a
value is written out.

Expansion follows references inside the value that was found.  The paths under
expansion form the *trail*.  A value is put in as found, without expansion, when
its path is on the trail already or the trail holds `trailLimit` paths; so a
cycle ends.  Collapsing ends after `collapseLimit` rounds.

Collapsing and key resolution look texts up without a longer trail.  Over
several layers such a look-up may call for itself without end, which no value
can stand for; `Unresolved.endless` stands for it, after `reentryLimit` texts
inside one another.  With a single layer it does not arise.

* `Resolver.resolveLevel` is one level of the recursion, and `resolveText` the
  recursion itself, for any admission to the trail;
* `Resolver.resolveScalar` resolves a lone text against every layer in turn;
* `Resolver.resolveAll` resolves a tree, keeping what was done before an error.
-/

namespace LayeredConfig

/-- Why a text has no resolved form. -/
inductive Unresolved where
  /-- No layer knows the placeholder, and that is an error. -/
  | missing (placeholder : String)
  /-- The texts under resolution call for one another without end. -/
  | endless
  deriving DecidableEq, Repr

/-- The number of paths that may be under expansion at once. -/
def trailLimit : Nat := 10

/-- The number of rounds spent on placeholders inside other placeholders. -/
def collapseLimit : Nat := 10

/-- The number of texts that may be under resolution inside one another. -/
def reentryLimit : Nat := 1000

/-- The paths under expansion, the outermost first. -/
abbrev Trail := List String

/-- A path is expanded if there is room on the trail and it is not there yet. -/
def Trail.admits (trail : Trail) (path : String) : Bool :=
  trail.length < trailLimit && !trail.contains path

/-- A path is admitted exactly if there is room and it is not on the trail. -/
theorem Trail.admits_iff {trail : Trail} {path : String} :
    trail.admits path = true ↔ trail.length < trailLimit ∧ path ∉ trail := by
  simp [Trail.admits]

/-- Replaces the placeholders inside other placeholders by their values, round
after round, until there are none or nothing changes. -/
def collapse (value : String → Except Unresolved Value) : Nat → String → Except Unresolved String
  | 0, text => .ok text
  | rounds + 1, text => do
    let nested := (Placeholder.nestedKeys text).eraseDups
    if nested.isEmpty then .ok text
    else
      let next ← nested.foldlM (fun next key => do
        let v ← value (Placeholder.wrap key)
        if v.asString? = some (Placeholder.wrap key) then .ok next
        else .ok (Placeholder.substitute key v.toText next)) text
      if next = text then .ok text else collapse value rounds next

/-- The placeholder of one key filled in, if the current value is a text.  What
the pass does not know stays, unless that is an error. -/
def fillKey (strict : Bool) (pass : Pass)
    (expand : String → Value → Except Unresolved Value)
    (current : Value) (key : String) : Except Unresolved Value :=
  match current with
  | .str text =>
    match pass.find? key with
    | some found => do
      let v ← expand key found
      if text = Placeholder.wrap key then .ok v
      else .ok (.str (Placeholder.substitute key v.toText text))
    | none =>
      if strict && pass.last then .error (.missing (Placeholder.wrap key)) else .ok current
  | other => .ok other

mutual

/-- Resolves the string leaves of a value, and after the values of a mapping its
keys.  What was resolved before an error stays. -/
def Value.resolveLeaves (onText : String → Except Unresolved Value)
    (onKeys : Mapping → Edited Unresolved Mapping) : Value → Edited Unresolved Value
  | .str text =>
    if Placeholder.contains text then
      match onText text with
      | .ok v => .done v
      | .error e => .stop (.str text) e
    else .done (.str text)
  | .seq items => (Value.resolveItems onText onKeys items).map .seq
  | .map entries => ((Value.resolveEntries onText onKeys entries).andThen onKeys).map .map
  | v => .done v

/-- Resolves the items of a sequence one after the other. -/
def Value.resolveItems (onText : String → Except Unresolved Value)
    (onKeys : Mapping → Edited Unresolved Mapping) : List Value → Edited Unresolved (List Value)
  | [] => .done []
  | v :: rest =>
    let head := v.resolveLeaves onText onKeys
    match head.failure with
    | some e => .stop (head.result :: rest) e
    | none => (Value.resolveItems onText onKeys rest).map (head.result :: ·)

/-- Resolves the values of a mapping one after the other. -/
def Value.resolveEntries (onText : String → Except Unresolved Value)
    (onKeys : Mapping → Edited Unresolved Mapping) :
    List (String × Value) → Edited Unresolved (List (String × Value))
  | [] => .done []
  | (name, v) :: rest =>
    let head := v.resolveLeaves onText onKeys
    match head.failure with
    | some e => .stop ((name, head.result) :: rest) e
    | none => (Value.resolveEntries onText onKeys rest).map ((name, head.result) :: ·)

end

/-- Gives the entry under `key` the name `name`.  It keeps its place, unless an
entry of that name is there, whose value it then overwrites. -/
def Mapping.rename (m : Mapping) (key name : String) : Mapping :=
  match m.lookup key with
  | none => m
  | some v =>
    let others := m.erase key
    if others.hasKey name then others.insert name v
    else others.place (m.keys.idxOf key) name v

/-- Renames the entries of one mapping whose keys hold placeholders, if that is
asked for. -/
def resolveKeys (enabled : Bool) (value : String → Except Unresolved Value) (m : Mapping) :
    Edited Unresolved Mapping :=
  if enabled then
    Edited.foldl (fun m key =>
      match value key with
      | .ok v => if v.toText = key then .done m else .done (m.rename key v.toText)
      | .error e => .stop m e) m (m.keys.filter Placeholder.contains)
  else .done m

/-- A text looked up in pass after pass, for as long as it is a text. -/
def throughPasses (resolve : Pass → String → Except Unresolved Value) (passes : List Pass)
    (text : String) : Except Unresolved Value :=
  passes.foldlM (fun current pass =>
    match current with
    | .str text => resolve pass text
    | v => .ok v) (.str text)

/-- How a text is resolved against one pass, below a trail. -/
abbrev TextResolution := Trail → Pass → String → Except Unresolved Value

namespace Resolver

/-- The value found for a key with the placeholders that it carries resolved.
It stays as found where the trail does not admit the key's path.  Texts inside it
are left to `deeper`. -/
def expand (r : Resolver) (admits : Trail → String → Bool) (deeper : TextResolution)
    (trail : Trail) (pass : Pass) (key : String) (found : Value) : Except Unresolved Value :=
  let path := Placeholder.pathText key
  if !admits trail path then .ok found
  else
    match found with
    | .str text =>
      if r.options.nestedResolution && Placeholder.contains text then
        deeper (trail ++ [path]) pass text
      else .ok found
    | composite =>
      (composite.resolveLeaves (deeper (trail ++ [path]) pass)
        (resolveKeys r.options.keyResolution
          (throughPasses (deeper (trail ++ [path])) r.passes))).toExcept

/-- Resolves a text against one pass.  The texts that it calls for are left to
`deeper`. -/
def resolveLevel (r : Resolver) (admits : Trail → String → Bool) (deeper : TextResolution) :
    TextResolution := fun trail pass text => do
  let collapsed ← collapse (throughPasses (deeper trail) r.passes) collapseLimit text
  let keys := (Placeholder.keys collapsed).eraseDups
  keys.foldlM (fillKey r.options.failOnUnresolvable pass (r.expand admits deeper trail pass))
    (.str collapsed)

end Resolver

/-- Resolves a text against one pass.  `admits` says which paths may still be
expanded below a trail; `depth` bounds the texts inside one another. -/
def resolveText (admits : Trail → String → Bool) (r : Resolver) : Nat → TextResolution
  | 0 => fun _ _ _ => .error .endless
  | depth + 1 => r.resolveLevel admits (resolveText admits r depth)

namespace Resolver

/-- Resolves a lone text against every layer in turn. -/
def resolveScalarBy (run : TextResolution) (r : Resolver) (text : String) :
    Except Unresolved Value :=
  throughPasses (run []) r.passes text

/-- Resolves a tree against one pass. -/
def resolvePassBy (run : TextResolution) (r : Resolver) (pass : Pass) (tree : Mapping) :
    Edited Unresolved Mapping :=
  let renamed := resolveKeys r.options.keyResolution (r.resolveScalarBy run)
  (Value.resolveEntries (run [] pass) renamed tree).andThen renamed

/-- Resolves a tree, one pass a layer. -/
def resolveAllBy (run : TextResolution) (r : Resolver) (tree : Mapping) :
    Edited Unresolved Mapping :=
  Edited.foldl (fun tree pass => r.resolvePassBy run pass tree) tree r.passes

/-- Resolves a lone text against every layer in turn. -/
def resolveScalar (r : Resolver) (text : String) : Except Unresolved Value :=
  r.resolveScalarBy (resolveText Trail.admits r reentryLimit) text

/-- Resolves every placeholder in a tree. -/
def resolveAll (r : Resolver) (tree : Mapping) : Edited Unresolved Mapping :=
  r.resolveAllBy (resolveText Trail.admits r reentryLimit) tree

end Resolver

end LayeredConfig
