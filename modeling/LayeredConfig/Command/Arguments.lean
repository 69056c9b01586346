import LayeredConfig.Settings
import LayeredConfig.Text.Blank

/-!
# The command line

A command line is a verb with parameters.  A parameter is given by its long name
after two dashes or, if it has one, by its letter after one dash.  Its value
follows after an equals sign, directly behind the letter, or as the next word;
some parameters go on taking words until one starts with a dash.  After two bare
dashes every word is an operand.

Most parameters may also be given by a variable of the environment, which counts
only where the command line says nothing.

* `Request` is what a command line asks for, `Request.read?` reads one; there is
  no request where the command line breaks a rule.
-/

namespace LayeredConfig.Command

/-- What a command line can set. -/
inductive Parameter where
  | configs | overrides | prior | exports
  | failOnUnresolvable | nullUnresolved | keyResolution | noNestedResolution | logJson
  deriving DecidableEq, Repr

/-- How many values a parameter takes each time it is given. -/
inductive Arity where
  | none | one | several
  deriving DecidableEq, Repr

namespace Parameter

/-- The long name. -/
def long : Parameter → String
  | configs => "configs"
  | overrides => "overrides"
  | prior => "vars-json"
  | exports => "exports"
  | failOnUnresolvable => "fail-on-unresolvable"
  | nullUnresolved => "null-unresolved"
  | keyResolution => "key-resolution"
  | noNestedResolution => "no-nested-resolution"
  | logJson => "log-json"

/-- The letter. -/
def letter? : Parameter → Option Char
  | configs => some 'c'
  | overrides => some 'o'
  | prior => some 'j'
  | exports => some 'e'
  | _ => none

/-- The number of values. -/
def arity : Parameter → Arity
  | configs | overrides => .several
  | prior | exports => .one
  | _ => .none

/-- Whether the values are names of files, which must not be empty. -/
def namesFiles : Parameter → Bool
  | configs | prior | exports => true
  | _ => false

/-- The name of the variable in the environment. -/
def variableName? : Parameter → Option String
  | prior => some "STRATA_VARS_JSON"
  | exports => some "STRATA_EXPORTS"
  | failOnUnresolvable => some "STRATA_FAIL_ON_UNRESOLVABLE"
  | nullUnresolved => some "STRATA_NULL_UNRESOLVED"
  | keyResolution => some "STRATA_KEY_RESOLUTION"
  | logJson => some "STRATA_LOG_JSON"
  | _ => none

/-- The parameters about what is compiled and how. -/
def ofSources : List Parameter :=
  [configs, overrides, prior, failOnUnresolvable, nullUnresolved, keyResolution,
    noNestedResolution, logJson]

end Parameter

/-- The variables of the environment, by their names. -/
abbrev Environment := String → Option String

/-! ## Reading words -/

/-- The words of a command line behind its verb, read in part. -/
structure Reading where
  /-- The parameters given so far, the last first, each with its values. -/
  given : List (Parameter × List String)
  /-- Whether the last one takes the next word for a value. -/
  takesValue : Bool
  operands : List String
  /-- Whether all further words are operands. -/
  operandsOnly : Bool

namespace Reading

/-- Nothing read. -/
def start : Reading :=
  { given := [], takesValue := false, operands := [], operandsOnly := false }

/-- Gives a parameter, with a value if one is attached to its name. -/
def give? (r : Reading) (p : Parameter) (attached : Option (List Char)) : Option Reading :=
  match p.arity, attached with
  | .none, none => some { r with given := (p, []) :: r.given, takesValue := false }
  | .none, some _ => none
  | _, none => some { r with given := (p, []) :: r.given, takesValue := true }
  | _, some v =>
    some { r with given := (p, [String.ofList v]) :: r.given, takesValue := false }

/-- Reads a word that is no name: a value where one is taken, else an operand. -/
def addPlain (r : Reading) (word : String) : Reading :=
  match r.given with
  | (p, values) :: earlier =>
    if r.takesValue then
      { r with given := (p, values ++ [word]) :: earlier, takesValue := p.arity == .several }
    else { r with operands := r.operands ++ [word] }
  | [] => { r with operands := r.operands ++ [word] }

/-- A name cut at the first equals sign. -/
def cutEquals : List Char → List Char × Option (List Char)
  | [] => ([], none)
  | '=' :: value => ([], some value)
  | c :: rest =>
    let (name, value) := cutEquals rest
    (c :: name, value)

/-- Reads a long name from behind its dashes. -/
def addLong? (parameters : List Parameter) (r : Reading) (cs : List Char) : Option Reading := do
  let (name, value) := cutEquals cs
  let p ← parameters.find? fun p => p.long.toList == name
  r.give? p value

/-- Reads a letter and what stands behind it. -/
def addLetter? (parameters : List Parameter) (r : Reading) (c : Char) (rest : List Char) :
    Option Reading := do
  let p ← parameters.find? fun p => p.letter? == some c
  match rest with
  | [] => r.give? p none
  | '=' :: value => r.give? p (some value)
  | value => r.give? p (some value)

/-- Reads one word. -/
def add? (parameters : List Parameter) (r : Reading) (word : String) : Option Reading :=
  if r.operandsOnly then some { r with operands := r.operands ++ [word] }
  else
    match word.toList with
    | ['-', '-'] => some { r with operandsOnly := true, takesValue := false }
    | '-' :: '-' :: name => addLong? parameters r name
    | '-' :: c :: rest => addLetter? parameters r c rest
    | _ => some (r.addPlain word)

/-- Whether one of the parameters given is without a value that it needs, or has an
empty one that should name a file. -/
def lacksValue (r : Reading) : Bool :=
  r.given.any fun (p, values) =>
    (p.arity != .none && values.isEmpty) || (p.namesFiles && values.any String.isEmpty)

/-- Whether a parameter that is given once at most is given again. -/
def repeats (r : Reading) : Bool :=
  let once := (r.given.map Prod.fst).filter fun p => p.arity != .several
  once.eraseDups.length < once.length

/-- The words behind a verb, if they obey the rules. -/
def ofWords? (parameters : List Parameter) (words : List String) : Option Reading := do
  let r ← words.foldlM (add? parameters) start
  if r.lacksValue || r.repeats then none else some r

/-- All values of a parameter, in order. -/
def values (r : Reading) (p : Parameter) : List String :=
  (r.given.reverse.filter fun entry => entry.1 == p).flatMap Prod.snd

/-- The value of a parameter that takes one: from the command line, or else from
the environment. -/
def value? (r : Reading) (environment : Environment) (p : Parameter) : Option (Option String) :=
  match (r.values p).head? with
  | some v => some (some v)
  | none =>
    match p.variableName?.bind environment with
    | some "" => none
    | v => some v

/-- Whether a parameter without values is given; the environment says `true` or
`false`. -/
def flag? (r : Reading) (environment : Environment) (p : Parameter) : Option Bool :=
  if r.given.any fun entry => entry.1 == p then some true
  else
    match p.variableName?.bind environment with
    | none | some "false" => some false
    | some "true" => some true
    | some _ => none

end Reading

/-! ## Requests -/

/-- What is compiled, and how. -/
structure Sources where
  /-- The names of the source files. -/
  configs : List String
  /-- The override tokens. -/
  tokens : List String
  /-- The name of the file with the prior export. -/
  prior : Option String
  settings : Settings
  deriving Repr

/-- What a command line asks for. -/
inductive Request where
  /-- The export of a compilation, on the output or in a file. -/
  | compile (sources : Sources) (file : Option String)
  /-- One value of a compiled tree. -/
  | get (sources : Sources) (path : String)
  deriving Repr

/-- The sources that the words of a command line name. -/
def Sources.ofReading? (environment : Environment) (r : Reading) : Option Sources := do
  let failOnUnresolvable ← r.flag? environment .failOnUnresolvable
  let nullUnresolved ← r.flag? environment .nullUnresolved
  let keyResolution ← r.flag? environment .keyResolution
  let shallow ← r.flag? environment .noNestedResolution
  let _ ← r.flag? environment .logJson
  let prior ← r.value? environment .prior
  if (r.values .configs).isEmpty then none
  else
    some
      { configs := r.values .configs
        tokens := (r.values .overrides).flatMap Text.words
        prior
        settings :=
          { Settings.standard with
            failOnUnresolvable
            nestedResolution := !shallow
            keyResolution
            nullUnresolved } }

namespace Request

/-- The request of a verb with the words behind it. -/
def ofVerb? (environment : Environment) (verb : String) (words : List String) : Option Request :=
  if verb = "compile" then do
    let r ← Reading.ofWords? (.exports :: Parameter.ofSources) words
    let sources ← Sources.ofReading? environment r
    let file ← r.value? environment .exports
    if r.operands.isEmpty then some (.compile sources file) else none
  else if verb = "get" then do
    let r ← Reading.ofWords? Parameter.ofSources words
    let sources ← Sources.ofReading? environment r
    match r.operands with
    | [path] => some (.get sources path)
    | _ => none
  else none

/-- The request of a command line.  The parameter about logs may also stand before
the verb. -/
def read? (environment : Environment) : List String → Option Request
  | [] => none
  | first :: rest =>
    if first = "--" ++ Parameter.logJson.long then
      match rest with
      | [] => none
      | verb :: words => ofVerb? environment verb words
    else ofVerb? environment first rest

end Request

end LayeredConfig.Command
