import LayeredConfig.Template.Statement

/-!
# The names that a function captures

The body of a function is rendered away from where the function was defined.  What
it mentions but does not bind is captured there: `captured` lists these names.

A statement binds its names before it mentions any, so the value that a name is set
to does not capture that very name.  What a branch or a loop binds stays inside it.

* `Expr.names` lists the names that an expression mentions;
* `Statement.outside` lists those that a statement mentions and that are not bound
  before it.
-/

namespace LayeredConfig.Template

mutual

/-- The names that an expression mentions. -/
def Expr.names : Expr → List String
  | .literal _ => []
  | .name n => [n]
  | .list es => Expr.allNames es
  | .map entries => Expr.entryNames entries
  | .field e _ => e.names
  | .index e key => e.names ++ key.names
  | .negate e | .complement e => e.names
  | .both a b | .either a b | .binary _ a b => a.names ++ b.names
  | .compare first rest => first.names ++ Expr.chainNames rest
  | .choice condition yes no => condition.names ++ yes.names ++ no.names
  | .call e plain named | .filter e _ plain named | .test e _ plain named =>
    e.names ++ Expr.allNames plain ++ Expr.namedNames named

/-- The names that several expressions mention. -/
def Expr.allNames : List Expr → List String
  | [] => []
  | e :: es => e.names ++ Expr.allNames es

/-- The names that the keys and values of entries mention. -/
def Expr.entryNames : List (Expr × Expr) → List String
  | [] => []
  | (key, value) :: rest => key.names ++ value.names ++ Expr.entryNames rest

/-- The names that the right operands of comparisons mention. -/
def Expr.chainNames : List (BinaryOp × Expr) → List String
  | [] => []
  | (_, e) :: rest => e.names ++ Expr.chainNames rest

/-- The names that named arguments mention. -/
def Expr.namedNames : List (String × Expr) → List String
  | [] => []
  | (_, e) :: rest => e.names ++ Expr.namedNames rest

end

/-- The names that the arguments of a filter mention. -/
def FilterCall.names (f : FilterCall) : List String :=
  Expr.allNames f.plain ++ Expr.namedNames f.named

mutual

/-- The names that a target binds. -/
def Target.names : Target → List String
  | .name n => [n]
  | .parts targets => Target.allNames targets

/-- The names that several targets bind. -/
def Target.allNames : List Target → List String
  | [] => []
  | t :: targets => t.names ++ Target.allNames targets

end

/-- The names of a list that are not bound. -/
def unbound (bound names : List String) : List String :=
  names.filter fun n => !bound.contains n

/-- The names that a statement binds for those behind it. -/
def Statement.binds : Statement → List String
  | .assign target _ => target.names
  | .capture name _ _ | .define name _ _ => [name]
  | _ => []

/-- The names that the defaults of parameters mention. -/
def defaultNames (parameters : List (String × Option Expr)) : List String :=
  parameters.flatMap fun p => (p.2.map Expr.names).getD []

mutual

/-- The names that a statement mentions and that are not bound before it. -/
def Statement.outside (bound : List String) : Statement → List String
  | .text _ => []
  | .output e => unbound bound e.names
  | .loop target range filter body otherwise =>
    let around := "loop" :: bound
    let inside := target.names ++ around
    unbound around range.names ++ unbound inside ((filter.map Expr.names).getD []) ++
      Statement.allOutside inside body ++ Statement.allOutside bound otherwise
  | .branch condition yes no =>
    unbound bound condition.names ++ Statement.allOutside bound yes ++
      Statement.allOutside bound no
  | .assign target value => unbound (target.names ++ bound) value.names
  | .capture name filters body =>
    let bound := name :: bound
    Statement.allOutside bound body ++ unbound bound (filters.flatMap FilterCall.names)
  | .define name parameters body =>
    let bound := parameters.map Prod.fst ++ name :: "caller" :: bound
    unbound bound (defaultNames parameters) ++ Statement.allOutside bound body

/-- The names that statements mention and that are not bound before them. -/
def Statement.allOutside (bound : List String) : List Statement → List String
  | [] => []
  | first :: rest =>
    first.outside bound ++ Statement.allOutside (first.binds ++ bound) rest

end

/-- The names that a function with these parameters and this body captures. -/
def captured (parameters : List (String × Option Expr)) (body : List Statement) :
    List String :=
  let bound := parameters.map Prod.fst
  (unbound bound (defaultNames parameters) ++ Statement.allOutside bound body).eraseDups

end LayeredConfig.Template
