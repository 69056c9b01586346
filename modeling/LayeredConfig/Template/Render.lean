import LayeredConfig.Template.Scope

/-!
# Rendering templates

A template is rendered against bindings: its text is copied, its expressions are
evaluated and printed, its statements are carried out.

An undefined name prints as nothing, runs through nothing and is not true; only
looking something up in it is an error.

* `Expr.eval?` and `Statement.run?` are defined by recursion on the expression and
  on the statement; what a call does is a parameter of both;
* `callRoutine` gives that parameter its meaning: it renders the body of the
  function, with one call less to come;
* `render?` renders a template.
-/

namespace LayeredConfig.Template

/-- What a call of a function prints. -/
abbrev Calls := Scope → Routine → Arguments → Option String

mutual

/-- Binds an item to a target; one with parts takes as many as the item has. -/
def Target.bind? (s : Scope) (item : Item) : Target → Option Scope
  | .name n => some (s.bind n item)
  | .parts targets => do
    let items ← item.parts?
    Target.bindParts? s targets items

/-- Binds items to targets, one to one. -/
def Target.bindParts? (s : Scope) : List Target → List Item → Option Scope
  | [], [] => some s
  | t :: targets, item :: items => do
    let s ← Target.bind? s item t
    Target.bindParts? s targets items
  | _, _ => none

end

/-- Calls the function that an item is: a defined one or a built-in one. -/
def Item.call? (calls : Calls) (s : Scope) (arguments : Arguments) : Item → Option Item
  | .routine r => (calls s r arguments).map .text
  | .function name => builtin? name arguments
  | _ => none

mutual

/-- The item that an expression stands for. -/
def Expr.eval? (calls : Calls) (s : Scope) : Expr → Option Item
  | .literal item => some item
  | .name n => some (s.item n)
  | .list es => (Expr.evalAll? calls s es).map .list
  | .map entries => (Expr.evalEntries? calls s entries).map fun es => .map (Item.sortEntries es)
  | .field e n => do
    let item ← e.eval? calls s
    item.lookup? (.text n)
  | .index e key => do
    let item ← e.eval? calls s
    let key ← key.eval? calls s
    item.lookup? key
  | .negate e => do
    let item ← e.eval? calls s
    item.negate?
  | .complement e => do
    let item ← e.eval? calls s
    some (.bool !item.isTrue)
  | .both a b => do
    let item ← a.eval? calls s
    if item.isTrue then b.eval? calls s else some item
  | .either a b => do
    let item ← a.eval? calls s
    if item.isTrue then some item else b.eval? calls s
  | .binary op a b => do
    let x ← a.eval? calls s
    let y ← b.eval? calls s
    op.apply? x y
  | .compare first rest => do
    let item ← first.eval? calls s
    Expr.holds? calls s item rest
  | .choice condition yes no => do
    let item ← condition.eval? calls s
    if item.isTrue then yes.eval? calls s else no.eval? calls s
  | .call callee plain named => do
    let plain ← Expr.evalAll? calls s plain
    let named ← Expr.evalNamed? calls s named
    let item ← callee.eval? calls s
    item.call? calls s { plain, named }
  | .filter e n plain named => do
    let item ← e.eval? calls s
    let plain ← Expr.evalAll? calls s plain
    let named ← Expr.evalNamed? calls s named
    filter? n item { plain, named }
  | .test e n plain named => do
    let item ← e.eval? calls s
    let plain ← Expr.evalAll? calls s plain
    let named ← Expr.evalNamed? calls s named
    (test? n item { plain, named }).map .bool

/-- Whether comparisons hold, each between the operand before it and its own.  Behind
one that does not hold nothing is evaluated. -/
def Expr.holds? (calls : Calls) (s : Scope) (left : Item) :
    List (BinaryOp × Expr) → Option Item
  | [] => some (.bool true)
  | (op, e) :: rest => do
    let right ← e.eval? calls s
    let verdict ← op.apply? left right
    if verdict.isTrue then Expr.holds? calls s right rest else some (.bool false)

/-- The items of several expressions. -/
def Expr.evalAll? (calls : Calls) (s : Scope) : List Expr → Option (List Item)
  | [] => some []
  | e :: es => do
    let item ← e.eval? calls s
    let items ← Expr.evalAll? calls s es
    some (item :: items)

/-- The items of the keys and values of entries. -/
def Expr.evalEntries? (calls : Calls) (s : Scope) :
    List (Expr × Expr) → Option (List (Item × Item))
  | [] => some []
  | (key, value) :: rest => do
    let k ← key.eval? calls s
    let v ← value.eval? calls s
    let entries ← Expr.evalEntries? calls s rest
    some ((k, v) :: entries)

/-- The items of named expressions. -/
def Expr.evalNamed? (calls : Calls) (s : Scope) :
    List (String × Expr) → Option (List (String × Item))
  | [] => some []
  | (n, e) :: rest => do
    let item ← e.eval? calls s
    let named ← Expr.evalNamed? calls s rest
    some ((n, item) :: named)

end

/-- The turns of a loop through items, each with its item. -/
def turns (items : List Item) : List (Item × Item) :=
  let count := items.length
  let neighbours := (Item.undefined :: items).zip (items.drop 1 ++ [.undefined])
  (items.zip neighbours).zipIdx.map fun ((item, previous, next), turn) =>
    (.loop turn count previous next, item)

/-- Sends an item through filters, one after the other. -/
def sendThrough? (calls : Calls) (s : Scope) (filters : List FilterCall) (item : Item) :
    Option Item :=
  filters.foldlM (fun item f => do
    let plain ← Expr.evalAll? calls s f.plain
    let named ← Expr.evalNamed? calls s f.named
    filter? f.name item { plain, named }) item

/-- The items that pass the filter of a loop. -/
def passing? (calls : Calls) (s : Scope) (target : Target) (filter : Option Expr)
    (items : List Item) : Option (List Item) :=
  match filter with
  | none => some items
  | some condition => do
    let s ← s.enter?
    items.filterM fun item => do
      let s ← target.bind? s item
      let verdict ← condition.eval? calls s
      some verdict.isTrue

/-- What has been printed, text after text. -/
abbrev Output := List String

mutual

/-- Carries a statement out: what it prints, and the scope after it. -/
def Statement.run? (calls : Calls) (s : Scope) : Statement → Option (Output × Scope)
  | .text t => some ([t], s)
  | .output e => do
    let item ← e.eval? calls s
    some ([item.spell], s)
  | .loop target range filter body otherwise => do
    let range ← range.eval? calls s
    let all ← range.elements?
    let items ← passing? calls s target filter all
    if items.isEmpty then Statement.runAll? calls s otherwise
    else
      let s ← s.enter?
      let (outs, s) ← (turns items).foldlM (fun (outs, s) (turn, item) => do
        let s ← target.bind? (Scope.turn s turn) item
        let (out, s) ← Statement.runAll? calls s body
        some (out :: outs, s)) (([] : List Output), s)
      some (outs.reverse.flatten, s.leave)
  | .branch condition yes no => do
    let item ← condition.eval? calls s
    if item.isTrue then Statement.runAll? calls s yes else Statement.runAll? calls s no
  | .assign target value => do
    let item ← value.eval? calls s
    let s ← target.bind? s item
    some ([], s)
  | .capture name filters body => do
    let (out, s) ← Statement.runAll? calls s body
    let item ← sendThrough? calls s filters (.text (String.join out))
    some ([], s.bind name item)
  | .define name parameters body => some ([], s.define name parameters body)

/-- Carries statements out one after the other. -/
def Statement.runAll? (calls : Calls) (s : Scope) : List Statement → Option (Output × Scope)
  | [] => some ([], s)
  | first :: rest => do
    let (out, s) ← first.run? calls s
    let (more, s) ← Statement.runAll? calls s rest
    some (out ++ more, s)

end

/-- The arguments in the order of the parameters; those left out are undefined.
No parameter takes a plain and a named one, and no argument is left over; of those of
one name the last counts. -/
def Arguments.arrange? (arguments : Arguments) (r : Routine) : Option (List Item) :=
  let given := r.parameters.take arguments.plain.length
  let rest := r.parameters.drop arguments.plain.length
  let accepts := fun n => rest.contains n || (r.asksCaller && n == "caller")
  if r.parameters.length < arguments.plain.length then none
  else if arguments.named.any fun (n, _) => given.contains n || !accepts n then none
  else
    let named := arguments.named.reverse
    some (arguments.plain ++ rest.map fun n => (named.lookup n).getD .undefined)

/-- Binds the parameters of a function, from the last to the first.  A default is
evaluated for a parameter that would be undefined. -/
def bindParameters? (calls : Calls) (s : Scope) :
    List ((String × Option Expr) × Item) → Option Scope
  | [] => some s
  | ((name, fallback), item) :: rest => do
    let s ← bindParameters? calls s rest
    match item, fallback with
    | .undefined, some e =>
      let item ← e.eval? calls s
      some (s.bind name item)
    | item, _ => some (s.bind name item)

/-- The scope of a call with the name `caller` bound, if the function asks for it. -/
def bindCaller (s : Scope) (r : Routine) (arguments : Arguments) : Scope :=
  if r.asksCaller then
    s.bind "caller" ((arguments.named.reverse.lookup "caller").getD .undefined)
  else s

/-- Calls a function, with so many calls to come: renders its body on top of its
shelf. -/
def callRoutine : Nat → Calls
  | 0, _, _, _ => none
  | calls + 1, s, r, arguments => do
    let d ← s.definitions[r.place]?
    let items ← arguments.arrange? r
    let inside ← s.inside? d
    let inside := bindCaller inside r arguments
    let inside ← bindParameters? (callRoutine calls) inside (d.parameters.zip items)
    let (out, _) ← Statement.runAll? (callRoutine calls) inside d.body
    some (String.join out)

/-- The text of a template with its bindings filled in, if the template is well
formed and nothing in it fails.  Every call adds to the depth, so the limit on the
depth bounds the calls as well. -/
def render? (template : String) (bindings : Mapping) : Option String := do
  let statements ← Statement.read? template
  let (out, _) ← Statement.runAll? (callRoutine depthLimit) (.ofBindings bindings) statements
  some (String.join out)

end LayeredConfig.Template
