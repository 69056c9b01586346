import LayeredConfig.Export
import LayeredConfig.Page.Split
import LayeredConfig.Placeholder.Anchor
import LayeredConfig.Resolve.Report
import LayeredConfig.Settings

/-!
# Compiling a source page by page

A compilation goes through four stages.  It is seeded with a prior export, the
source is split into pages, the pages are rendered one at a time, and then it is
done.  Rendering a page means: fill in its template (not on the first page), read
it, put the overrides in (on the first page only), merge it into the running
configuration, anchor the relative placeholders there, and resolve the running
configuration against a snapshot of itself.

Resolving after every page lets a placeholder on an early page see what a later
page defines.

* `Compilation.step` makes one step and says how it went; a page that failed is
  consumed all the same, and what it changed before it failed stays;
* `Compilation.compile` steps to the end and stops at the first error.
-/

namespace LayeredConfig

/-- How the template of a page is filled in: from its text and the running
configuration. -/
abbrev Templater := String → Mapping → Option String

/-- The stages of a compilation. -/
inductive Stage where
  | seed | split | render | done
  deriving DecidableEq, Repr, Inhabited

/-- What a compilation starts from. -/
structure CompileInput where
  /-- The texts of the sources, of which there must be one. -/
  sources : List String
  overrides : Overrides
  prior : Option Mapping
  settings : Settings

/-- The collaborators of a compilation. -/
structure Tools where
  templater : Templater
  format : Format

/-- A compilation between two steps. -/
structure Compilation where
  stage : Stage
  source : String
  overrides : Overrides
  prior : Option Mapping
  settings : Settings
  /-- The pages that are not rendered yet. -/
  pages : List Page
  /-- The configuration put together so far. -/
  running : Mapping

namespace Compilation

/-- Starts a compilation.  There must be exactly one source. -/
def start (input : CompileInput) : Except Error Compilation :=
  match input.sources with
  | [source] => .ok
    { stage := .seed
      source
      overrides := input.overrides
      prior := input.prior
      settings := input.settings
      pages := []
      running := [] }
  | [] => .error (.source none .absent)
  | several => .error (.unsupported (.severalSources several.length))

/-- Ends a compilation. -/
def finish (c : Compilation) : Compilation :=
  let running := if c.settings.nullUnresolved then c.running.clearUnresolved else c.running
  { c with running, stage := .done }

/-- The text of a page, with its template filled in unless it is the first. -/
def pageText (tools : Tools) (page : Page) (running : Mapping) : Except Error String :=
  if page.index = 0 then .ok page.text
  else
    match tools.templater page.text running with
    | some text => .ok text
    | none => .error (.template page.index)

/-- The tree of a page. -/
def pageTree (tools : Tools) (page : Page) (running : Mapping) : Except Error Mapping := do
  let text ← pageText tools page running
  match tools.format.readMapping text with
  | .ok tree => .ok tree
  | .error e => .error (e.onPage page.index)

/-- Puts the overrides into the first page. -/
def withOverrides (c : Compilation) (page : Page) (tree : Mapping) :
    Compilation × Except Error Mapping :=
  if page.index = 0 ∧ ¬ c.overrides.isEmpty then
    let checked := c.overrides.validate c.running tree
    let c := { c with overrides := checked.result }
    match checked.failure with
    | some e => (c, .error e)
    | none =>
      let merged := checked.result.apply tree
      match merged.failure with
      | some e => (c, .error (.conflict e))
      | none => (c, .ok merged.result)
  else (c, .ok tree)

/-- Merges a page's tree into the running configuration, anchors it and resolves it
against a snapshot of itself. -/
def absorb (settings : Settings) (running tree : Mapping) : Edited Error Mapping :=
  let merged := Mapping.merge .append tree running
  match merged.failure with
  | some e => .stop merged.result (.conflict e)
  | none =>
    let anchored := merged.result.anchor
    match anchored.failure with
    | some e => .stop anchored.result (.unwritable e)
    | none =>
      let resolver := Resolver.single settings.resolverOptions "running config" anchored.result
      let resolved := resolver.resolveAll anchored.result
      ⟨resolved.result, resolved.failure.map .unresolved⟩

/-- Renders a page. -/
def renderPage (tools : Tools) (c : Compilation) (page : Page) : Edited Error Compilation :=
  match pageTree tools page c.running with
  | .error e => .stop c e
  | .ok tree =>
    match c.withOverrides page tree with
    | (c, .error e) => .stop c e
    | (c, .ok tree) =>
      (absorb c.settings c.running tree).map fun running => { c with running }

/-- Makes one step.  Where it fails, the stage stays. -/
def step (tools : Tools) (c : Compilation) : Edited Error Compilation :=
  match c.stage with
  | .seed =>
    match c.prior with
    | some prior =>
      let seeded := Mapping.merge .append prior c.running
      let c := { c with prior := none, running := seeded.result }
      match seeded.failure with
      | some e => .stop c (.conflict e)
      | none => .done { c with stage := .split }
    | none => .done { c with stage := .split }
  | .split =>
    let pages := splitPages c.source c.settings.pageSeparator
    let c := { c with pages }
    if pages.isEmpty then .done c.finish else .done { c with stage := .render }
  | .render =>
    match c.pages with
    | [] => .done c.finish
    | page :: rest =>
      (renderPage tools { c with pages := rest } page).andThen fun c =>
        if c.pages.isEmpty then .done c.finish else .done c
  | .done => .done c

/-- Makes steps until the compilation is done, at most `bound` of them. -/
def runToEnd (tools : Tools) : Nat → Compilation → Edited Error Compilation
  | 0, c => .done c
  | bound + 1, c =>
    (c.step tools).andThen fun c => if c.stage = .done then .done c else runToEnd tools bound c

/-- The number of steps that end every compilation: two before the pages, one a
page, and one to spare. -/
def stepBound (c : Compilation) : Nat :=
  (splitPages c.source c.settings.pageSeparator).length + 3

end Compilation

/-- The tree that an input compiles to. -/
def compile (tools : Tools) (input : CompileInput) : Except Error Mapping := do
  let c ← Compilation.start input
  let finished ← (c.runToEnd tools c.stepBound).toExcept
  .ok finished.running

end LayeredConfig
