import LayeredConfig.Template.Capture
import LayeredConfig.Template.Filter

/-!
# Scopes

Names are looked up in frames, the innermost first.  The outermost frame holds the
bindings of the template.  A loop has a frame of its own, which is empty again at
the start of every turn; a branch has none.

A function takes the names that it mentions along.  They stand in the *shelf* of the
frame in which it is defined, and what is bound in that frame later goes to the shelf
as well, so the function sees it.  The shelf lasts for as long as the frame does, also
from one turn of a loop to the next.  A call is rendered in two frames: the bindings
of the template, and on top of them the shelf of the function.

* `Scope.item` looks a name up, `Scope.bind` binds one in the innermost frame;
* `Scope.define` binds a function and fills its shelf;
* `Scope.turn` starts a turn of a loop, `Scope.inside?` a call.
-/

namespace LayeredConfig.Template

/-- Names with what they are bound to, each name once. -/
abbrev Names := List (String × Item)

/-- The names with one more, or with another item for one of them. -/
def Names.put (names : Names) (name : String) (item : Item) : Names :=
  (name, item) :: names.filter fun entry => entry.1 != name

/-- A frame of names. -/
structure Frame where
  /-- What was bound in it. -/
  bound : Names
  /-- The loop that it belongs to. -/
  loop : Option Item
  /-- What it was given from outside. -/
  given : Names
  /-- The place of its shelf, if it has one. -/
  shelf : Option Nat

/-- What a frame knows of a name.  It can be given an undefined item, which is the same
as none. -/
def Frame.find? (frame : Frame) (name : String) : Option Item :=
  match frame.bound.lookup name with
  | some item => some item
  | none =>
    match if name = "loop" then frame.loop else none with
    | some item => some item
    | none => (frame.given.lookup name).filter fun item => !item.isUndefined

/-- A frame in which nothing is bound. -/
def Frame.ofGiven (given : Names) : Frame :=
  { bound := [], loop := none, given, shelf := none }

/-- A function that a template defines. -/
structure Definition where
  parameters : List (String × Option Expr)
  body : List Statement
  /-- The place of the shelf of the frame in which it was defined. -/
  shelf : Nat

/-- The names that are known at one point of a run. -/
structure Scope where
  /-- The frames, the innermost first. -/
  frames : List Frame
  /-- The shelves by their places. -/
  shelves : Array Names
  /-- The functions by their places. -/
  definitions : Array Definition
  /-- How much of the depth calls have used up. -/
  used : Nat

/-- The most that frames and calls may nest. -/
def depthLimit : Nat := 500

/-- The depth that a call uses up besides its frames. -/
def callDepth : Nat := 4

namespace Scope

/-- The outermost frame alone, with the bindings of a template. -/
def ofBindings (bindings : Mapping) : Scope :=
  { frames := [.ofGiven (bindings.map fun (name, value) => (name, Item.ofValue value))]
    shelves := #[]
    definitions := #[]
    used := 0 }

/-- The depth of the innermost frame. -/
def depth (s : Scope) : Nat :=
  s.used + s.frames.length

/-- The item of a name. -/
def item (s : Scope) (name : String) : Item :=
  match s.frames.findSome? (·.find? name) with
  | some item => item
  | none => if builtinNames.contains name then .function name else .undefined

/-- Puts a name on a shelf. -/
def putOn (s : Scope) (place : Nat) (name : String) (item : Item) : Scope :=
  { s with shelves := s.shelves.modify place fun names => names.put name item }

/-- Binds a name in the innermost frame, where it may have been bound before. -/
def bind (s : Scope) (name : String) (item : Item) : Scope :=
  match s.frames with
  | [] => s
  | frame :: outer =>
    let s := { s with frames := { frame with bound := frame.bound.put name item } :: outer }
    match frame.shelf with
    | some place => s.putOn place name item
    | none => s

/-- The scope with a new frame, unless it would be too deep. -/
def enter? (s : Scope) : Option Scope :=
  if s.depth ≤ depthLimit then some { s with frames := .ofGiven [] :: s.frames } else none

/-- The scope without its innermost frame. -/
def leave (s : Scope) : Scope :=
  { s with frames := s.frames.tail }

/-- Starts a turn of the loop that the innermost frame belongs to.  A loop that is on
the shelf goes on with it. -/
def turn (s : Scope) (loop : Item) : Scope :=
  match s.frames with
  | [] => s
  | frame :: outer =>
    let s := { s with frames := { frame with bound := [], loop := some loop } :: outer }
    match frame.shelf with
    | none => s
    | some place =>
      match (s.shelves[place]?).bind (·.lookup "loop") with
      | some (.loop ..) => s.putOn place "loop" loop
      | _ => s

/-- The scope with a shelf in the innermost frame, and the place of the shelf. -/
def withShelf (s : Scope) : Nat × Scope :=
  match s.frames with
  | [] => (0, s)
  | frame :: outer =>
    match frame.shelf with
    | some place => (place, s)
    | none =>
      let place := s.shelves.size
      (place, { s with
        frames := { frame with shelf := some place } :: outer
        shelves := s.shelves.push [] })

/-- Puts names on a shelf, with what they are bound to at the moment.  Those that are
there already stay. -/
def capture (s : Scope) (place : Nat) (names : List String) : Scope :=
  names.foldl (fun s name =>
    match (s.shelves[place]?).bind (·.lookup name) with
    | some _ => s
    | none => s.putOn place name (s.item name)) s

/-- Defines a function in the innermost frame. -/
def define (s : Scope) (name : String) (parameters : List (String × Option Expr))
    (body : List Statement) : Scope :=
  let names := captured parameters body
  let (shelf, s) := s.withShelf
  let s := s.capture shelf (names.filter (· ≠ "caller"))
  let routine : Routine :=
    { name
      parameters := parameters.map Prod.fst
      asksCaller := names.contains "caller"
      place := s.definitions.size }
  let s := { s with definitions := s.definitions.push { parameters, body, shelf } }
  s.bind name (.routine routine)

/-- The scope in which a call of a function is rendered, unless it would be too deep. -/
def inside? (s : Scope) (d : Definition) : Option Scope := do
  let outermost ← s.frames.getLast?
  let shelf ← s.shelves[d.shelf]?
  let inside : Scope :=
    { s with
      frames := [.ofGiven shelf, .ofGiven outermost.given]
      used := s.depth + callDepth }
  if inside.depth ≤ depthLimit then some inside else none

end Scope

end LayeredConfig.Template
