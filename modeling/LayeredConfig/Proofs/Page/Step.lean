import LayeredConfig.Page.Compiler
import Mathlib.Data.List.Basic

/-!
# One step of a compilation

What a step does, stage by stage, for any templater and any format.  A step that
renders a page takes it off the pages whether or not it fails, and apart from the
overrides, which the checks may rewrite, it changes the running configuration alone.

* `renderPage_cases`: a page fails before the merge, or its tree is absorbed;
* `step_of_precedesMerge`: a page that fails before the merge leaves the running
  configuration as it is;
* `step_with_templater` and `step_setOverrides`: which steps look at the
  templater and at the overrides;
* `step_first_page`: what the overrides do to the first page.
-/

namespace LayeredConfig

namespace Edited

variable {ε α β : Type}

/-- Going on, seen inside a larger structure. -/
theorem map_andThen (f : α → β) (r : Edited ε α) {next : α → Edited ε α}
    {next' : β → Edited ε β} (h : ∀ a, (next a).map f = next' (f a)) :
    (r.andThen next).map f = (r.map f).andThen next' := by
  obtain ⟨result, failure⟩ := r
  cases failure with
  | none => exact h result
  | some e => rfl

end Edited

/-- An error of reading, of templating or of the override checks.  It is found before a
page is merged. -/
def Error.PrecedesMerge (e : Error) : Prop :=
  (∃ page fault, e = .source page fault) ∨ (∃ page, e = .template page) ∨
    ∃ failures, e = .overrideChecks failures

namespace Compilation

variable {tools : Tools} {c : Compilation}

/-- The page that the next step renders, if it renders one. -/
def nextPage? (c : Compilation) : Option Page :=
  if c.stage = .render then c.pages.head? else none

/-- The compilation with other overrides. -/
def setOverrides (c : Compilation) (overrides : Overrides) : Compilation :=
  { c with overrides }

/-- What follows a page: the compilation is done if it was the last one. -/
def afterPage (c : Compilation) : Edited Error Compilation :=
  if c.pages.isEmpty then .done c.finish else .done c

/-! ## The stages -/

/-- A source without pages ends the compilation. -/
theorem step_split_nil (hstage : c.stage = .split)
    (hpages : splitPages c.source c.settings.pageSeparator = []) :
    c.step tools = .done { c with pages := [] }.finish := by
  simp [step, hstage, hpages]

/-- A source with pages has them rendered next. -/
theorem step_split_cons (hstage : c.stage = .split)
    (hpages : splitPages c.source c.settings.pageSeparator ≠ []) :
    c.step tools =
      .done { c with
        pages := splitPages c.source c.settings.pageSeparator
        stage := .render } := by
  simp [step, hstage, hpages]

/-- Without pages left, rendering ends the compilation. -/
theorem step_render_nil (hstage : c.stage = .render) (hpages : c.pages = []) :
    c.step tools = .done c.finish := by
  simp only [step, hstage, hpages]

/-- With pages left, the first of them is taken off and rendered. -/
theorem step_render_cons (hstage : c.stage = .render) {page : Page} {rest : List Page}
    (hpages : c.pages = page :: rest) :
    c.step tools = (renderPage tools { c with pages := rest } page).andThen afterPage := by
  simp only [step, hstage, hpages]
  rfl

/-- A compilation that is done stays as it is. -/
theorem step_done (hstage : c.stage = .done) : c.step tools = .done c := by
  simp only [step, hstage]

/-! ## Rendering a page -/

/-- Putting the overrides in rewrites the overrides at most. -/
theorem withOverrides_cases (c : Compilation) (page : Page) (tree : Mapping) :
    ∃ overrides, (∃ e, c.withOverrides page tree = ({ c with overrides }, .error e)) ∨
      ∃ merged, c.withOverrides page tree = ({ c with overrides }, .ok merged) := by
  unfold withOverrides
  split
  · refine ⟨(c.overrides.validate c.running tree).result, ?_⟩
    cases hchecked : (c.overrides.validate c.running tree).failure with
    | some e => exact Or.inl ⟨e, by simp only [hchecked]⟩
    | none =>
        cases hmerged : ((c.overrides.validate c.running tree).result.apply tree).failure with
        | some e => exact Or.inl ⟨.conflict e, by simp only [hchecked, hmerged]⟩
        | none => exact Or.inr ⟨_, by simp only [hchecked, hmerged]; rfl⟩
  · exact ⟨c.overrides, Or.inr ⟨tree, rfl⟩⟩

/-- So the rest of the compilation is what it was. -/
theorem withOverrides_fst (c : Compilation) (page : Page) (tree : Mapping) :
    (c.withOverrides page tree).1 =
      { c with overrides := (c.withOverrides page tree).1.overrides } := by
  obtain ⟨overrides, ⟨e, hover⟩ | ⟨merged, hover⟩⟩ := c.withOverrides_cases page tree <;>
    rw [hover]

/-- **Putting the overrides in** looks at the overrides and at the running configuration
only. -/
theorem withOverrides_of_same {c d : Compilation} (hrunning : d.running = c.running)
    (hoverrides : d.overrides = c.overrides) (page : Page) (tree : Mapping) :
    d.withOverrides page tree =
      ({ d with overrides := (c.withOverrides page tree).1.overrides },
        (c.withOverrides page tree).2) := by
  by_cases hfirst : page.index = 0 ∧ ¬ c.overrides.isEmpty = true
  · cases hchecked : (c.overrides.validate c.running tree).failure with
    | some e => simp [withOverrides, hrunning, hoverrides, hfirst, hchecked]
    | none =>
        cases hmerged : ((c.overrides.validate c.running tree).result.apply tree).failure <;>
          simp [withOverrides, hrunning, hoverrides, hfirst, hchecked, hmerged]
  · have hplain : c.withOverrides page tree = (c, .ok tree) := if_neg hfirst
    have hplain' : d.withOverrides page tree = (d, .ok tree) := if_neg (hoverrides ▸ hfirst)
    rw [hplain, hplain', ← hoverrides]

/-- **A page fails before the merge, or its tree is absorbed.** -/
theorem renderPage_cases (tools : Tools) (c : Compilation) (page : Page) :
    ∃ overrides, (∃ e, renderPage tools c page = .stop { c with overrides } e) ∨
      ∃ tree, renderPage tools c page =
        (absorb c.settings c.running tree).map fun running => { c with overrides, running } := by
  unfold renderPage
  cases htree : pageTree tools page c.running with
  | error e => exact ⟨c.overrides, Or.inl ⟨e, rfl⟩⟩
  | ok tree =>
      obtain ⟨overrides, ⟨e, hover⟩ | ⟨merged, hover⟩⟩ := c.withOverrides_cases page tree
      · exact ⟨overrides, Or.inl ⟨e, by simp only [hover]⟩⟩
      · exact ⟨overrides, Or.inr ⟨merged, by simp only [hover]⟩⟩

/-- Rendering a page changes nothing but the overrides and the running configuration. -/
theorem renderPage_result (tools : Tools) (c : Compilation) (page : Page) :
    ∃ overrides running,
      (renderPage tools c page).result = { c with overrides, running } := by
  obtain ⟨overrides, ⟨e, hrender⟩ | ⟨tree, hrender⟩⟩ := renderPage_cases tools c page
  · exact ⟨overrides, c.running, by rw [hrender]; rfl⟩
  · exact ⟨overrides, _, by rw [hrender]; rfl⟩

/-- Absorbing a tree fails with none of the errors that precede the merge. -/
theorem absorb_failure {settings : Settings} {running tree : Mapping} {e : Error}
    (h : (absorb settings running tree).failure = some e) : ¬ e.PrecedesMerge := by
  have hcause : (∃ cause, e = .conflict cause) ∨ (∃ fault, e = .unwritable fault) ∨
      ∃ cause, e = .unresolved cause := by
    simp only [absorb] at h
    split at h
    · next cause hcause => exact Or.inl ⟨cause, (Option.some.inj h).symm⟩
    · split at h
      · next fault hfault => exact Or.inr (Or.inl ⟨fault, (Option.some.inj h).symm⟩)
      · obtain ⟨cause, -, rfl⟩ := Option.map_eq_some_iff.mp h
        exact Or.inr (Or.inr ⟨cause, rfl⟩)
  rintro (⟨_, _, rfl⟩ | ⟨_, rfl⟩ | ⟨_, rfl⟩) <;>
    rcases hcause with ⟨_, h⟩ | ⟨_, h⟩ | ⟨_, h⟩ <;> contradiction

/-- A page that fails before the merge leaves the running configuration as it is. -/
theorem renderPage_of_precedesMerge {page : Page} {e : Error}
    (h : (renderPage tools c page).failure = some e) (he : e.PrecedesMerge) :
    (renderPage tools c page).result.running = c.running := by
  obtain ⟨overrides, ⟨e', hrender⟩ | ⟨tree, hrender⟩⟩ := renderPage_cases tools c page
  · rw [hrender]
    rfl
  · rw [hrender, Edited.failure_map] at h
    exact absurd he (absorb_failure h)

/-! ## Steps that render a page -/

/-- The step after a page adds no failure. -/
theorem failure_andThen_afterPage (r : Edited Error Compilation) :
    (r.andThen afterPage).failure = r.failure := by
  obtain ⟨result, failure⟩ := r
  cases failure with
  | some e => rfl
  | none =>
      change (afterPage result).failure = none
      unfold afterPage
      split <;> rfl

/-- A failed page is followed by nothing. -/
theorem result_andThen_afterPage {r : Edited Error Compilation} {e : Error}
    (h : r.failure = some e) : (r.andThen afterPage).result = r.result := by
  rw [Edited.andThen, h]

/-- **A page is consumed, whether it fails or not.**  The compilation goes on rendering,
or it is done and no pages are left. -/
theorem step_render_result (hstage : c.stage = .render) {page : Page} {rest : List Page}
    (hpages : c.pages = page :: rest) :
    (c.step tools).result.pages = rest ∧
      ((c.step tools).result.stage = .render ∨
        (c.step tools).result.stage = .done ∧ rest = []) := by
  obtain ⟨overrides, running, hresult⟩ := renderPage_result tools { c with pages := rest } page
  rw [step_render_cons hstage hpages]
  cases hfail : (renderPage tools { c with pages := rest } page).failure with
  | some e =>
      rw [result_andThen_afterPage hfail, hresult]
      exact ⟨rfl, Or.inl hstage⟩
  | none =>
      rw [Edited.eq_done hfail, hresult, Edited.done_andThen, afterPage]
      split
      · next hempty => exact ⟨rfl, Or.inr ⟨rfl, List.isEmpty_iff.mp hempty⟩⟩
      · exact ⟨rfl, Or.inl hstage⟩

/-- **A step that fails before the merge leaves the running configuration as it is.** -/
theorem step_of_precedesMerge {e : Error} (h : (c.step tools).failure = some e)
    (he : e.PrecedesMerge) : (c.step tools).result.running = c.running := by
  cases hstage : c.stage with
  | seed =>
      cases hprior : c.prior with
      | none => simp [step, hstage, hprior] at h
      | some prior =>
          cases hseed : (Mapping.merge .append prior c.running).failure with
          | none => simp [step, hstage, hprior, hseed] at h
          | some cause =>
              obtain rfl : .conflict cause = e := by
                simpa [step, hstage, hprior, hseed, Edited.stop] using h
              obtain ⟨_, _, hconflict⟩ | ⟨_, hconflict⟩ | ⟨_, hconflict⟩ := he <;> contradiction
  | split =>
      by_cases hpages : splitPages c.source c.settings.pageSeparator = []
      · rw [step_split_nil hstage hpages] at h
        contradiction
      · rw [step_split_cons hstage hpages] at h
        contradiction
  | render =>
      cases hpages : c.pages with
      | nil =>
          rw [step_render_nil hstage hpages] at h
          contradiction
      | cons page rest =>
          rw [step_render_cons hstage hpages] at h ⊢
          rw [failure_andThen_afterPage] at h
          rw [result_andThen_afterPage h]
          exact renderPage_of_precedesMerge h he
  | done =>
      rw [step_done hstage] at h
      contradiction

/-- The page that is rendered next is rendered by the next step, and taken off. -/
theorem step_of_nextPage? {page : Page} (h : c.nextPage? = some page) :
    c.step tools =
      (renderPage tools { c with pages := c.pages.tail } page).andThen afterPage := by
  rw [nextPage?] at h
  split at h
  · next hstage =>
      obtain ⟨rest, hpages⟩ := List.head?_eq_some_iff.mp h
      rw [step_render_cons hstage hpages, hpages, List.tail_cons]
  · contradiction

/-! ## What a step looks at -/

/-- A step that renders no page does not look at the collaborators. -/
theorem step_of_nextPage?_eq_none (h : c.nextPage? = none) (other : Tools) :
    c.step other = c.step tools := by
  cases hstage : c.stage with
  | seed => simp only [step, hstage]
  | split => simp only [step, hstage]
  | render =>
      have hpages : c.pages = [] := by simpa [nextPage?, hstage] using h
      rw [step_render_nil hstage hpages, step_render_nil hstage hpages]
  | done => rw [step_done hstage, step_done hstage]

/-- The first page is rendered without the templater. -/
theorem renderPage_with_templater {page : Page} (hpage : page.index = 0)
    (templater : Templater) :
    renderPage { tools with templater } c page = renderPage tools c page := by
  simp [renderPage, pageTree, pageText, hpage]

/-- **The templater is for later pages.**  A step that renders none of them gives the
same with any templater. -/
theorem step_with_templater (h : ∀ page, c.nextPage? = some page → page.index = 0)
    (templater : Templater) : c.step { tools with templater } = c.step tools := by
  cases hnext : c.nextPage? with
  | none => exact step_of_nextPage?_eq_none hnext _
  | some page =>
      rw [step_of_nextPage? hnext, step_of_nextPage? hnext,
        renderPage_with_templater (h page hnext)]

/-- A later page is rendered without the overrides. -/
theorem renderPage_setOverrides {page : Page} (hpage : page.index ≠ 0) (overrides : Overrides) :
    renderPage tools (c.setOverrides overrides) page =
      (renderPage tools c page).map (setOverrides · overrides) := by
  simp only [renderPage, setOverrides]
  cases pageTree tools page c.running with
  | error e => rfl
  | ok tree => simp [withOverrides, hpage, Edited.map]

/-- What follows a page does not look at the overrides. -/
theorem afterPage_setOverrides (c : Compilation) (overrides : Overrides) :
    (afterPage c).map (setOverrides · overrides) = afterPage (c.setOverrides overrides) := by
  unfold afterPage
  by_cases hempty : c.pages.isEmpty = true
  · rw [if_pos hempty]
    exact (if_pos hempty).symm
  · rw [if_neg hempty]
    exact (if_neg hempty).symm

/-- **The overrides are for the first page.**  A step that does not render it gives the
same with any overrides, and it leaves them as they are. -/
theorem step_setOverrides (h : ∀ page, c.nextPage? = some page → page.index ≠ 0)
    (overrides : Overrides) :
    (c.setOverrides overrides).step tools = (c.step tools).map (setOverrides · overrides) := by
  cases hstage : c.stage with
  | seed =>
      cases hprior : c.prior with
      | none => simp [step, setOverrides, hstage, hprior]
      | some prior =>
          cases hseed : (Mapping.merge .append prior c.running).failure <;>
            simp [step, setOverrides, hstage, hprior, hseed, Edited.stop, Edited.map, Edited.done]
  | split =>
      by_cases hpages : splitPages c.source c.settings.pageSeparator = []
      · rw [step_split_nil hstage hpages,
          step_split_nil (c := c.setOverrides overrides) hstage hpages]
        rfl
      · rw [step_split_cons hstage hpages,
          step_split_cons (c := c.setOverrides overrides) hstage hpages]
        rfl
  | render =>
      cases hpages : c.pages with
      | nil =>
          rw [step_render_nil hstage hpages,
            step_render_nil (c := c.setOverrides overrides) hstage hpages]
          rfl
      | cons page rest =>
          have hpage : page.index ≠ 0 := h page (by simp [nextPage?, hstage, hpages])
          rw [step_render_cons hstage hpages,
            step_render_cons (c := c.setOverrides overrides) hstage hpages,
            Edited.map_andThen _ _ fun c => afterPage_setOverrides c overrides,
            ← renderPage_setOverrides hpage overrides]
          rfl
  | done =>
      rw [step_done hstage, step_done (c := c.setOverrides overrides) hstage, Edited.done_map]

/-! ## The first page with overrides -/

section FirstPage

variable {page : Page} {tree : Mapping}

/-- The tree of the first page is read from its text as it is. -/
theorem pageTree_first (hpage : page.index = 0)
    (hread : tools.format.readMapping page.text = .ok tree) (running : Mapping) :
    pageTree tools page running = .ok tree := by
  have htext : pageText tools page running = .ok page.text := if_pos hpage
  rw [pageTree, htext]
  simp only [bind, Except.bind, hread]

/-- Overrides that fail their checks fail the first page. -/
theorem renderPage_of_rejected (hpage : page.index = 0)
    (hread : tools.format.readMapping page.text = .ok tree) (hsome : c.overrides.isEmpty = false)
    {e : Error} (hrejected : (c.overrides.validate c.running tree).failure = some e) :
    (renderPage tools c page).failure = some e := by
  rw [renderPage, pageTree_first hpage hread]
  simp [withOverrides, hpage, hsome, hrejected, Edited.stop]

/-- Overrides that cannot be merged into the first page fail it. -/
theorem renderPage_of_conflict (hpage : page.index = 0)
    (hread : tools.format.readMapping page.text = .ok tree) (hsome : c.overrides.isEmpty = false)
    (hchecked : (c.overrides.validate c.running tree).failure = none) {cause : MergeConflict}
    (hconflict : ((c.overrides.validate c.running tree).result.apply tree).failure =
      some cause) :
    (renderPage tools c page).failure = some (.conflict cause) := by
  rw [renderPage, pageTree_first hpage hread]
  simp [withOverrides, hpage, hsome, hchecked, hconflict, Edited.stop]

/-- Overrides that pass their checks are merged into the first page, and what that gives
is absorbed. -/
theorem renderPage_of_checked (hpage : page.index = 0)
    (hread : tools.format.readMapping page.text = .ok tree) (hsome : c.overrides.isEmpty = false)
    (hchecked : (c.overrides.validate c.running tree).failure = none) {merged : Mapping}
    (hmerged : (c.overrides.validate c.running tree).result.apply tree = .done merged) :
    renderPage tools c page =
      (absorb c.settings c.running merged).map fun running =>
        { c with overrides := (c.overrides.validate c.running tree).result, running } := by
  rw [renderPage, pageTree_first hpage hread]
  simp [withOverrides, hpage, hsome, hchecked, hmerged]

/-- **Overrides on the first page.**  Where the first page is read and there are
overrides, they are checked and then merged into the page.  Either may fail the step;
else the step absorbs what they give. -/
theorem step_first_page (hnext : c.nextPage? = some page) (hpage : page.index = 0)
    (hread : tools.format.readMapping page.text = .ok tree)
    (hsome : c.overrides.isEmpty = false) :
    (∀ e, (c.overrides.validate c.running tree).failure = some e →
      (c.step tools).failure = some e) ∧
    (∀ cause, (c.overrides.validate c.running tree).failure = none →
      ((c.overrides.validate c.running tree).result.apply tree).failure = some cause →
      (c.step tools).failure = some (.conflict cause)) ∧
    ∀ merged, (c.overrides.validate c.running tree).failure = none →
      (c.overrides.validate c.running tree).result.apply tree = .done merged →
      c.step tools =
        ((absorb c.settings c.running merged).map fun running =>
          { c with
            pages := c.pages.tail
            overrides := (c.overrides.validate c.running tree).result
            running }).andThen afterPage := by
  rw [step_of_nextPage? hnext, failure_andThen_afterPage]
  refine ⟨fun e he => ?_, fun cause hchecked hconflict => ?_, fun merged hchecked hmerged => ?_⟩
  · exact renderPage_of_rejected (c := { c with pages := c.pages.tail }) hpage hread hsome he
  · exact renderPage_of_conflict (c := { c with pages := c.pages.tail }) hpage hread hsome
      hchecked hconflict
  · rw [renderPage_of_checked (c := { c with pages := c.pages.tail }) hpage hread hsome hchecked
      hmerged]

end FirstPage

end Compilation

end LayeredConfig
