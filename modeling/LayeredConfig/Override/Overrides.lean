import LayeredConfig.Error
import LayeredConfig.Override.Sniff
import LayeredConfig.Text.Blank

/-!
# Overrides

Tokens of the form `path=value` override values of the first page.  They are
kept twice: flat, keyed by the path as it was written, for the checks, and as a
tree, for merging.

* `Overrides.parse` reads tokens, `Overrides.put` adds one override;
* `Overrides.validate` checks that every path is there with a value of the same
  kind, and turns a text `[x,y]` into the sequence of its parts where a sequence
  is wanted;
* `Overrides.apply` merges the tree into a page.
-/

namespace LayeredConfig

/-- Overrides in input order, as a tree, and the tokens they came from. -/
structure Overrides where
  flat : Mapping
  nested : Mapping
  tokens : List String

/-- No overrides. -/
def Overrides.empty : Overrides := ⟨[], [], []⟩

namespace Override

/-- The characters of an override's path. -/
def isPathChar (c : Char) : Bool :=
  c.isAlphanum || c == '_' || c == '.'

/-- A token cut into its page, if it names one, its path and its raw value. -/
structure Token where
  page : Option String
  path : String
  raw : String
  deriving DecidableEq, Repr

/-- Cuts the number of a page and the colon behind it off a token. -/
def cutPage (cs : List Char) : Option String × List Char :=
  match Decimal.digitRun cs with
  | (d :: digits, ':' :: rest) => (some (String.ofList (d :: digits)), rest)
  | _ => (none, cs)

/-- Cuts a token at its first equals sign.  The path before it is a run of path
characters that is not empty. -/
def Token.read? (token : String) : Option Token :=
  let (page, cs) := cutPage token.toList
  match cs.takeWhile isPathChar, cs.dropWhile isPathChar with
  | c :: path, '=' :: raw => some ⟨page, String.ofList (c :: path), String.ofList raw⟩
  | _, _ => none

/-- The parts of a text between the commas. -/
def commaParts : List Char → List (List Char)
  | [] => [[]]
  | c :: rest =>
    if c = ',' then [] :: commaParts rest
    else
      match commaParts rest with
      | [] => [[c]]
      | part :: parts => (c :: part) :: parts

/-- The text between an opening and a closing square bracket. -/
def bracketed? (text : String) : Option (List Char) :=
  match text.toList with
  | '[' :: rest => if rest.getLast? = some ']' then some rest.dropLast else none
  | _ => none

/-- The value that an override takes where another kind is expected: only a text
`[x,y]` in the place of a sequence can be mended. -/
def coerce? (existing value : Value) : Option Value :=
  match existing, value with
  | .seq _, .str text =>
    (bracketed? text).map fun inner =>
      .seq ((commaParts inner).map fun part => .str (String.ofList part))
  | _, _ => none

/-- The outcome of the check of one override. -/
inductive Verdict where
  /-- The override has the kind that is there. -/
  | fits
  /-- The override fits after it was turned into this value. -/
  | coerced (value : Value)
  /-- The override is rejected. -/
  | rejected (failure : OverrideFailure)

/-- Checks one override against the running configuration, and against the page
where the running configuration has nothing at the path.  Null is nothing. -/
def verdict (running page : Mapping) (path : String) (value : Value) : Verdict :=
  match Value.nonNull? (running.find? path) <|> Value.nonNull? (page.find? path) with
  | none => .rejected (.missing path)
  | some existing =>
    if existing.kind = value.kind then .fits
    else
      match coerce? existing value with
      | some v => .coerced v
      | none => .rejected (.mistyped path)

/-- The failure of a rejected override. -/
def Verdict.failure? : Verdict → Option OverrideFailure
  | rejected failure => some failure
  | _ => none

/-- The value of a coerced override. -/
def Verdict.coerced? : Verdict → Option Value
  | coerced value => some value
  | _ => none

end Override

namespace Overrides

/-- Whether there is no override. -/
def isEmpty (o : Overrides) : Bool :=
  o.flat.isEmpty

/-- Adds or replaces one override: in the tree, and if that succeeds under its
path as written. -/
def put (o : Overrides) (path : String) (value : Value) : Edited Error Overrides :=
  match Path.read? path with
  | none => .stop o (.unreadablePath path)
  | some p =>
    let nested := o.nested.set p value
    match nested.failure with
    | some fault => .stop { o with nested := nested.result } (.unwritable fault)
    | none => .done { o with nested := nested.result, flat := o.flat.insert path value }

/-- Reads one token.  A blank one counts for nothing. -/
def addToken (o : Overrides) (token : String) : Except Error Overrides :=
  let token := Text.trim token
  if token.isEmpty then .ok o
  else
    match Override.Token.read? token with
    | none => .error (.overrideToken token)
    | some ⟨some page, _, _⟩ => .error (.unsupported (.pageOverride page token))
    | some ⟨none, path, raw⟩ => do
      let o ← (o.put path (Override.sniff raw)).toExcept
      .ok { o with tokens := o.tokens ++ [token] }

/-- Reads tokens.  The first that cannot be read is the error. -/
def parse (tokens : List String) : Except Error Overrides :=
  tokens.foldlM addToken empty

/-- Checks every override, writes the coerced ones back, and then fails with all
rejections if there is one. -/
def validate (o : Overrides) (running page : Mapping) : Edited Error Overrides :=
  let verdicts := o.flat.map fun (path, value) => (path, Override.verdict running page path value)
  let failures := verdicts.filterMap fun (_, v) => v.failure?
  let coerced := verdicts.filterMap fun (path, v) => v.coerced?.map (path, ·)
  (Edited.foldl (fun o (path, value) => o.put path value) o coerced).andThen fun o =>
    if failures.isEmpty then .done o else .stop o (.overrideChecks failures)

/-- Merges the overrides into a page.  Sequences are replaced. -/
def apply (o : Overrides) (page : Mapping) : Edited MergeConflict Mapping :=
  Mapping.merge .replace o.nested page

end Overrides

end LayeredConfig
