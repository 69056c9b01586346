import LayeredConfig.Command.Arguments
import LayeredConfig.Export
import LayeredConfig.Page.Compiler

/-!
# Carrying a request out

A request reads its sources and a prior export, compiles them, and ends in a text
that is printed or written to a file.  How files are read is a parameter, so that
the same request can be carried out on a file system and on a `Folder`, which is
nothing but a list of files.

The first failure is the one that is reported: a file that cannot be read, then a
prior export that is malformed, then a wrong override token, then the compilation.

* `Sources.compile` is what the verbs have in common;
* `Request.outcome` is what a request comes to, `run` carries out a command line
  in a folder.
-/

namespace LayeredConfig.Command

/-- How a file is read by its name. -/
abbrev FileReader := String → Except FileFault String

/-- The text of a file. -/
def readFile (files : FileReader) (name : String) : Except Error String :=
  (files name).mapError (.file name)

/-- The prior export in a file, if one is named. -/
def readPrior (files : FileReader) : Option String → Except Error (Option Mapping)
  | none => .ok none
  | some name => do
    let text ← readFile files name
    let prior ← loadExport text
    .ok (some prior)

/-- The compiled tree of sources, and the overrides that went into it. -/
def Sources.compile (templater : Templater) (files : FileReader) (s : Sources) :
    Except Error (Mapping × Overrides) := do
  let sources ← s.configs.mapM (readFile files)
  let prior ← readPrior files s.prior
  let overrides ← Overrides.parse s.tokens
  let tree ← LayeredConfig.compile { templater, format := .yaml }
    { sources, overrides, prior, settings := s.settings }
  .ok (tree, overrides)

/-- What a request ends in: a text, and the file that it is written to or else
nothing, where it is printed. -/
structure Outcome where
  text : String
  file : Option String

/-- The text of an export of sources. -/
def Sources.exportText (templater : Templater) (files : FileReader) (s : Sources) :
    Except Error String := do
  let (tree, overrides) ← s.compile templater files
  match (tree.includeMeta (.ofOverrides overrides)).toExcept with
  | .ok tree => .ok (renderExport tree)
  | .error e => .error (.conflict e)

/-- A value as it is printed alone: composites as indented JSON, all else as
text. -/
def printedValue (v : Value) : String :=
  if v.isComposite then v.indentedJson else v.toText

/-- The text of the value at a path of the compiled tree. -/
def Sources.valueText (templater : Templater) (files : FileReader) (s : Sources)
    (path : String) : Except Error String := do
  let (tree, _) ← s.compile templater files
  match Path.read? path with
  | none => .error (.unreadablePath path)
  | some p =>
    match tree.get? p with
    | some v => .ok (printedValue v)
    | none => .error (.noValue path)

namespace Request

/-- What a request comes to. -/
def outcome (templater : Templater) (files : FileReader) : Request → Except Error Outcome
  | compile sources file => do
    let text ← sources.exportText templater files
    .ok { text := text ++ "\n", file }
  | get sources path => do
    let text ← sources.valueText templater files path
    .ok { text := text ++ "\n", file := none }

/-- The names of the files that a request reads. -/
def inputs : Request → List String
  | compile sources _ | get sources _ => sources.configs ++ sources.prior.toList

end Request

/-! ## Folders -/

/-- A folder: its files by name, with their texts. -/
abbrev Folder := List (String × String)

namespace Folder

/-- The parts of a file's name.  A part that names the folder it is in says
nothing. -/
def nameParts (name : String) : List String :=
  (name.splitOn "/").filter fun part => part != "" && part != "."

/-- Whether two names are of the same file in the folder. -/
def sameFile (a b : String) : Bool :=
  !a.startsWith "/" && !b.startsWith "/" && nameParts a == nameParts b

/-- The text of a file. -/
def read (folder : Folder) : FileReader := fun name =>
  match folder.find? fun file => sameFile name file.1 with
  | some file => .ok file.2
  | none => .error .notFound

/-- Whether a file may be written: the folders that its name leads through are
there. -/
def hasPlaceFor (folder : Folder) (name : String) : Bool :=
  let inside := (nameParts name).dropLast
  !name.startsWith "/" &&
    (inside.isEmpty || folder.any fun file => inside.isPrefixOf (nameParts file.1).dropLast)

/-- Replaces the text of a file, or adds the file. -/
def put (folder : Folder) (name text : String) : Folder :=
  match folder with
  | [] => [("/".intercalate (nameParts name), text)]
  | file :: rest =>
    if sameFile name file.1 then (file.1, text) :: rest else file :: put rest name text

/-- Writes a file. -/
def write (folder : Folder) (name text : String) : Except Error Folder :=
  if hasPlaceFor folder name then .ok (folder.put name text)
  else .error (.file name .notFound)

/-- The files that are new or changed since `before`, by their names. -/
def changes (before after : Folder) : List (String × String) :=
  (after.filter fun file => before.lookup file.1 != some file.2).mergeSort
    fun a b => decide (a.1 ≤ b.1)

end Folder

/-- What a command line prints and the folder it leaves. -/
structure Output where
  printed : String
  folder : Folder

/-- Carries out a command line in a folder. -/
def run (templater : Templater) (folder : Folder) (environment : Environment)
    (arguments : List String) : Except Error Output := do
  match Request.read? environment arguments with
  | none => .error .usage
  | some request =>
    let outcome ← request.outcome templater folder.read
    match outcome.file with
    | none => .ok { printed := outcome.text, folder }
    | some name =>
      let folder ← folder.write name outcome.text
      .ok { printed := "", folder }

end LayeredConfig.Command
