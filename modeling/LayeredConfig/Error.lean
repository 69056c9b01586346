import LayeredConfig.Resolve.Resolution
import LayeredConfig.Tree.Merge

/-!
# Errors

Every way in which a compilation can fail, as data.  The path, placeholder or
token at fault is part of the error; `Error.message?` puts it into words.

The wording of a text that is not YAML, JSON or a template belongs to the reader
of that format and is not fixed here, so those errors have no message.
-/

namespace LayeredConfig

/-- What is wrong with a configuration source. -/
inductive SourceFault where
  /-- The text does not follow its format. -/
  | malformed
  /-- The text holds a value of another kind than a mapping. -/
  | notAMapping (found : Kind)
  /-- There is no source at all. -/
  | absent
  deriving DecidableEq, Repr

/-- A failed check of one override. -/
inductive OverrideFailure where
  /-- There is nothing at the path. -/
  | missing (path : String)
  /-- What is at the path has another kind. -/
  | mistyped (path : String)
  deriving DecidableEq, Repr

/-- What the program recognises but does not do. -/
inductive Feature where
  /-- An override for one page. -/
  | pageOverride (page token : String)
  /-- More than one configuration source. -/
  | severalSources (count : Nat)
  deriving DecidableEq, Repr

/-- Why a file cannot be read or written. -/
inductive FileFault where
  | notFound
  | other (description : String)
  deriving DecidableEq, Repr

/-- Every way to fail. -/
inductive Error where
  /-- A file cannot be read or written. -/
  | file (name : String) (cause : FileFault)
  /-- A source is malformed, on a page if one is known. -/
  | source (page : Option Nat) (fault : SourceFault)
  /-- A page cannot be templated. -/
  | template (page : Nat)
  /-- Two trees have different shapes. -/
  | conflict (cause : MergeConflict)
  /-- A text has no resolved form. -/
  | unresolved (cause : Unresolved)
  /-- A token is no override. -/
  | overrideToken (token : String)
  /-- Overrides do not fit the configuration. -/
  | overrideChecks (failures : List OverrideFailure)
  /-- Something is recognised but not supported. -/
  | unsupported (feature : Feature)
  /-- A text is no path. -/
  | unreadablePath (text : String)
  /-- A path does not lead to a node that can be written. -/
  | unwritable (fault : WriteFault)
  /-- Settings cannot be read. -/
  | settings
  /-- There is no value at a path. -/
  | noValue (path : String)
  /-- The command line is rejected. -/
  | usage
  deriving DecidableEq, Repr

/-- The wording of a failed check. -/
def OverrideFailure.message : OverrideFailure → String
  | missing path => "(missing) " ++ path
  | mistyped path => "(type) " ++ path

/-- The wording of an unsupported feature. -/
def Feature.message : Feature → String
  | pageOverride page token => "page specific overrides (page " ++ page ++ " in `" ++ token ++ "`)"
  | severalSources count => s!"multiple configuration sources ({count} given)"

/-- The wording of what is wrong with a path. -/
def pathMessage (text fault : String) : String :=
  "invalid path `" ++ text ++ "`: " ++ fault

/-- The wording of a file fault. -/
def FileFault.message : FileFault → String
  | notFound => "No such file or directory (os error 2)"
  | other description => description

/-- The wording of a source fault, where it is fixed. -/
def SourceFault.message? : SourceFault → Option String
  | malformed => none
  | notAMapping found => some ("expected a mapping at the top level, found a " ++ found.name)
  | absent => some "no configuration source given"

/-- The start of a message about a source. -/
def sourceHeading : Option Nat → String
  | none => "malformed source: "
  | some page => s!"malformed source (page {page}): "

/-- The wording of an error, where it is fixed. -/
def Error.message? : Error → Option String
  | file name cause => some ("I/O error at " ++ name ++ ": " ++ cause.message)
  | source page fault => fault.message?.map (sourceHeading page ++ ·)
  | template _ => none
  | conflict cause => some ("cannot merge at " ++ Path.dotted cause.path ++ ": " ++ cause.message)
  | unresolved (.missing placeholder) => some ("unresolvable placeholder `" ++ placeholder ++ "`")
  | unresolved .endless => some "placeholders refer to one another without end"
  | overrideToken token => some ("malformed override `" ++ token ++ "`")
  | overrideChecks failures =>
    some ("failed during override checking: [" ++
      ", ".intercalate (failures.map OverrideFailure.message) ++ "]")
  | unsupported feature => some ("unsupported: " ++ feature.message)
  | unreadablePath text => some (pathMessage text "expected segments separated by `.` or `/`")
  | unwritable fault => some (pathMessage (Path.dotted fault.path) fault.cause.message)
  | settings => none
  | noValue text => some ("no value at `" ++ text ++ "`")
  | usage => none

/-- An error on a page, if it is about a source and names no page yet. -/
def Error.onPage (page : Nat) : Error → Error
  | source none fault => source (some page) fault
  | e => e

end LayeredConfig
