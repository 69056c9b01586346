import LayeredConfig.Proofs.Page.Absorb
import LayeredConfig.Proofs.Page.Run
import LayeredConfig.Proofs.Resolve.Plain

/-!
# Without placeholders a compilation merges

Where no placeholder opens, anchoring, resolving and clearing have nothing to do.  What is left
of a compilation is to merge one page after the other into the prior export, so a compilation
of plain pages is that chain of merges (`compile_eq_mergeAll`), conflicts included, and for all
settings.

The step of the argument is the page: absorbing a plain tree into a plain configuration is
merging it (`absorb_of_plain`), and what comes of it is plain again.  The run goes by induction
on the pages that are left, the running configuration being what the pages before them were
merged to (`runToEnd_of_plain`).
-/

namespace LayeredConfig

/-- Trees merged into a mapping, one after the other. -/
def Mapping.mergeAll (m : Mapping) (trees : List Mapping) : Except MergeConflict Mapping :=
  trees.foldlM (fun running tree => (tree.merge .append running).toExcept) m

namespace Mapping

/-- The first tree is merged before the others. -/
theorem mergeAll_cons (m tree : Mapping) (trees : List Mapping) :
    m.mergeAll (tree :: trees) =
      (tree.merge .append m).toExcept >>= fun next => next.mergeAll trees := by
  rw [mergeAll, List.foldlM_cons]
  rfl

/-- Where the first tree meets a conflict, that is what the trees come to. -/
theorem mergeAll_of_conflict {m tree : Mapping} {e : MergeConflict}
    (h : (tree.merge .append m).failure = some e) (trees : List Mapping) :
    m.mergeAll (tree :: trees) = .error e := by
  rw [mergeAll_cons, Edited.toExcept_eq_error_iff.mpr h]
  rfl

/-- Where it does not, the others are merged into the outcome. -/
theorem mergeAll_of_done {m tree next : Mapping} (h : tree.merge .append m = .done next)
    (trees : List Mapping) : m.mergeAll (tree :: trees) = next.mergeAll trees := by
  rw [mergeAll_cons, h]
  rfl

end Mapping

namespace Compilation

variable {tools : Tools} {c c' : Compilation}

/-! ## One page -/

/-- **Absorbing a plain tree is merging it**, for all settings. -/
theorem absorb_of_plain (settings : Settings) {running tree : Mapping}
    (hrunning : (Value.map running).IsPlain) (htree : (Value.map tree).IsPlain) :
    absorb settings running tree = (tree.merge .append running).mapFailure .conflict := by
  have hmerged : (Value.map (tree.merge .append running).result).IsPlain :=
    Value.plain_hereditary.merge htree hrunning
  rw [absorb]
  cases hfailure : (tree.merge .append running).failure with
  | some e => simp only [Edited.mapFailure, hfailure, Edited.stop, Option.map_some]
  | none =>
      simp only [Mapping.anchor_of_plain hmerged, Edited.failure_done, Edited.result_done,
        Resolver.resolveAll_of_plain _ hmerged, Edited.mapFailure, hfailure, Option.map_none]

/-- A page without overrides that is read as a plain tree is merged. -/
theorem renderPage_of_plain {page : Page} (pages : List Page) {tree : Mapping}
    (hoverrides : c.overrides.isEmpty = true) (hrunning : (Value.map c.running).IsPlain)
    (htree : (Value.map tree).IsPlain) (hread : pageTree tools page c.running = .ok tree) :
    renderPage tools { c with pages } page =
      ((tree.merge .append c.running).mapFailure .conflict).map
        fun running => { c with pages, running } := by
  have hplain : { c with pages }.withOverrides page tree = ({ c with pages }, .ok tree) :=
    if_neg fun h => h.2 hoverrides
  rw [renderPage]
  simp only [hread, hplain, absorb_of_plain c.settings hrunning htree]

/-- Ending a plain compilation leaves the running configuration. -/
theorem running_finish_of_plain (hrunning : (Value.map c.running).IsPlain) :
    c.finish.running = c.running := by
  rw [finish]
  split
  · exact Mapping.clearUnresolved_of_plain hrunning
  · rfl

/-! ## The run -/

/-- The configuration that a run ends with. -/
def outcome (tools : Tools) (bound : Nat) (c : Compilation) : Except Error Mapping :=
  (c.runToEnd tools bound).toExcept.map Compilation.running

/-- The configuration that a run ends with when it has come to the end of a page. -/
def outcomeBehind (tools : Tools) (bound : Nat) (c : Compilation) : Except Error Mapping :=
  if c.pages.isEmpty then .ok c.finish.running else c.outcome tools bound

/-- A run ends with a step that fails. -/
theorem outcome_of_failure {e : Error} (h : (c.step tools).failure = some e) (bound : Nat) :
    c.outcome tools (bound + 1) = .error e := by
  rw [outcome, runToEnd, Edited.andThen, h]
  rfl

/-- A run goes on behind a page. -/
theorem outcome_of_afterPage (h : c.step tools = afterPage c') (hstage : c'.stage = .render)
    (bound : Nat) : c.outcome tools (bound + 1) = c'.outcomeBehind tools bound := by
  rw [outcome, runToEnd, h, afterPage, outcomeBehind]
  split
  · have hdone : c'.finish.stage = .done := rfl
    rw [Edited.done_andThen, if_pos hdone]
    rfl
  · rw [Edited.done_andThen, if_neg (by rw [hstage]; exact Stage.noConfusion)]
    rfl

/-- Behind the split of a source a run goes on as behind a page. -/
theorem step_split (hstage : c.stage = .split) :
    c.step tools = afterPage { c with
      stage := .render
      pages := splitPages c.source c.settings.pageSeparator } := by
  by_cases hpages : splitPages c.source c.settings.pageSeparator = []
  · rw [step_split_nil hstage hpages, afterPage, hpages]
    rfl
  · rw [step_split_cons hstage hpages, afterPage, if_neg (by simpa using hpages)]

/-- A step that neither fails nor ends the run. -/
theorem outcome_of_step (h : c.step tools = .done c') (hstage : c'.stage ≠ .done) (bound : Nat) :
    c.outcome tools (bound + 1) = c'.outcome tools bound := by
  rw [outcome, runToEnd, h, Edited.done_andThen, if_neg hstage]
  rfl

/-- The templater returns the texts of pages, that of the first page aside, where the trees of
the pages in front of them are merged. -/
def Returned (templater : Templater) (m : Mapping) (pages : List Page) (trees : List Mapping) :
    Prop :=
  ∀ k page, pages[k]? = some page → page.index ≠ 0 → ∀ running,
    m.mergeAll (trees.take k) = .ok running → templater page.text running = some page.text

/-- What is returned behind a page is returned when that page is merged. -/
theorem Returned.tail {templater : Templater} {m next tree : Mapping} {page : Page}
    {pages : List Page} {trees : List Mapping}
    (h : Returned templater m (page :: pages) (tree :: trees))
    (hnext : tree.merge .append m = .done next) : Returned templater next pages trees := by
  intro k page' hpage hindex running hrunning
  refine h (k + 1) page' hpage hindex running ?_
  rw [List.take_succ_cons, Mapping.mergeAll_of_done hnext, hrunning]

/-- The tree of a page whose text is returned is what the text is read as. -/
theorem Returned.pageTree {m : Mapping} {page : Page} {pages : List Page} {trees : List Mapping}
    (h : Returned tools.templater m (page :: pages) trees) {tree : Mapping}
    (hread : tools.format.readMapping page.text = .ok tree) :
    pageTree tools page m = .ok tree := by
  have htext : pageText tools page m = .ok page.text := by
    rw [pageText]
    by_cases hfirst : page.index = 0
    · rw [if_pos hfirst]
    · rw [if_neg hfirst, h 0 page rfl hfirst m rfl]
  simp only [Compilation.pageTree, htext, bind, Except.bind, hread]

/-- **A run over plain pages merges them** into the running configuration, one after the other,
and stops at the first conflict. -/
theorem outcomeBehind_of_plain {pages : List Page} {trees : List Mapping} {bound : Nat}
    (hstage : c.stage = .render) (hpages : c.pages = pages)
    (hoverrides : c.overrides.isEmpty = true) (hrunning : (Value.map c.running).IsPlain)
    (hread : pages.mapM (fun page => tools.format.readMapping page.text) = .ok trees)
    (hplain : ∀ tree ∈ trees, (Value.map tree).IsPlain)
    (hreturned : Returned tools.templater c.running pages trees)
    (hbound : pages.length ≤ bound) :
    c.outcomeBehind tools bound = (c.running.mergeAll trees).mapError .conflict := by
  induction pages generalizing c trees bound with
  | nil =>
      obtain rfl : [] = trees := Except.ok.inj hread
      rw [outcomeBehind, hpages, if_pos List.isEmpty_nil, running_finish_of_plain hrunning]
      rfl
  | cons page pages ih =>
      obtain ⟨bound, rfl⟩ : ∃ n, bound = n + 1 := ⟨bound - 1, by
        rw [List.length_cons] at hbound
        omega⟩
      rw [List.mapM_cons] at hread
      obtain ⟨tree, hfirst, hread⟩ := bind_ok hread
      obtain ⟨others, hothers, hread⟩ := bind_ok hread
      obtain rfl : tree :: others = trees := Except.ok.inj hread
      have htree : (Value.map tree).IsPlain := hplain tree List.mem_cons_self
      have hrender := renderPage_of_plain pages hoverrides hrunning htree
        (hreturned.pageTree hfirst)
      have hstep : c.step tools = (renderPage tools { c with pages } page).andThen afterPage :=
        step_render_cons hstage hpages
      rw [outcomeBehind, hpages, if_neg (by simp)]
      cases hfailure : (tree.merge .append c.running).failure with
      | some e =>
          have hfails : (c.step tools).failure = some (.conflict e) := by
            rw [hstep, failure_andThen_afterPage, hrender, Edited.failure_map, Edited.mapFailure,
              hfailure]
            rfl
          rw [outcome_of_failure hfails, Mapping.mergeAll_of_conflict hfailure]
          rfl
      | none =>
          -- the page is merged, and the induction goes on from what that gives
          have hmerged := Edited.eq_done hfailure
          have hnext : (Value.map (tree.merge .append c.running).result).IsPlain :=
            Value.plain_hereditary.merge htree hrunning
          rw [hrender, hmerged] at hstep
          rw [outcome_of_afterPage hstep hstage, Mapping.mergeAll_of_done hmerged]
          exact ih hstage rfl hoverrides hnext hothers
            (fun t ht => hplain t (List.mem_cons_of_mem _ ht)) (hreturned.tail hmerged)
            (Nat.le_of_succ_le_succ hbound)

end Compilation

/-- **Without placeholders a compilation is plain merging.**  Let no placeholder open in the
prior export and in the trees that the pages of the one source are read as, and let the
templater return the text of every page but the first as it is.  Then without overrides, and
whatever the settings are, the compilation gives what merging the trees into the prior export
gives, in the same order, or it stops at the first conflict that the merging meets. -/
theorem compile_eq_mergeAll (tools : Tools) (input : CompileInput) {source : String}
    (hsource : input.sources = [source]) (hoverrides : input.overrides.isEmpty = true)
    (hprior : (Value.map (input.prior.getD [])).IsPlain) (hdistinct : input.Distinct)
    {trees : List Mapping}
    (hread : (splitPages source input.settings.pageSeparator).mapM
      (fun page => tools.format.readMapping page.text) = .ok trees)
    (hplain : ∀ tree ∈ trees, (Value.map tree).IsPlain)
    (hreturned : Compilation.Returned tools.templater (input.prior.getD [])
      (splitPages source input.settings.pageSeparator) trees) :
    compile tools input = ((input.prior.getD []).mergeAll trees).mapError .conflict := by
  obtain ⟨c, hstart, hfrom⟩ : ∃ c, Compilation.start input = .ok c ∧
      c.source = source ∧ c.settings = input.settings := by
    rw [Compilation.start, hsource]
    exact ⟨_, rfl, rfl, rfl⟩
  obtain ⟨hsame, hsettings⟩ := hfrom
  have hrun : compile tools input = c.outcome tools c.stepBound := by
    rw [compile, hstart, Compilation.outcome]
    cases h : (c.runToEnd tools c.stepBound).toExcept <;> simp [h, bind, Except.bind, Except.map]
  have hseeded := Compilation.step_start hstart hdistinct tools
  have hsplit : Compilation.step tools
      { c with stage := .split, prior := none, running := input.prior.getD [] } =
        Compilation.afterPage { c with
          stage := .render
          prior := none
          pages := splitPages c.source c.settings.pageSeparator
          running := input.prior.getD [] } := Compilation.step_split rfl
  have hempty : c.overrides.isEmpty = true := by
    rw [(Compilation.start_eq hstart).2.1, hoverrides]
  rw [hrun, Compilation.stepBound, Compilation.outcome_of_step hseeded Stage.noConfusion,
    Compilation.outcome_of_afterPage hsplit rfl]
  subst hsame
  rw [← hsettings] at hread hreturned
  exact Compilation.outcomeBehind_of_plain rfl rfl hempty hprior hread hplain hreturned
    (Nat.le_succ _)

/-- An export that two pages add to. -/
def rosterPrior : Mapping :=
  [("crew", .seq [.str "Al"]), ("port", .str "Brest")]

/-- Two pages with a crew and a port each. -/
def rosterSource : String :=
  "crew: [Bo]\nport: Ostend\n---\ncrew: [Cy]\nport: Dover"

/-- Two pages on top of an export, where everything is asked for that can be done to
placeholders. -/
def rosterInput : CompileInput :=
  { sources := [rosterSource]
    overrides := .empty
    prior := some rosterPrior
    settings :=
      { failOnUnresolvable := true
        nestedResolution := true
        keyResolution := true
        nullUnresolved := true
        pageSeparator := "---" } }

/-- The crews are appended, and the last port is kept. -/
theorem roster_is_merged :
    ∃ trees merged,
      (splitPages rosterSource "---").mapM (fun page => Format.yaml.readMapping page.text) =
        .ok trees ∧
      (∀ tree ∈ trees, (Value.map tree).IsPlain) ∧
      rosterPrior.mergeAll trees = .ok merged ∧
      merged.map (fun entry => (entry.1, entry.2.texts)) =
        [("crew", ["Al", "Bo", "Cy"]), ("port", ["Dover"])] ∧
      compile untemplated rosterInput = .ok merged := by
  have hpages : ((splitPages rosterSource "---").mapM
      fun page => Format.yaml.readMapping page.text).toOption.any (fun trees =>
        (∀ tree ∈ trees, (Value.map tree).IsPlain) ∧
        (rosterPrior.mergeAll trees).toOption.any fun merged =>
          merged.map (fun entry => (entry.1, entry.2.texts)) =
            [("crew", ["Al", "Bo", "Cy"]), ("port", ["Dover"])]) = true := by decide +kernel
  obtain ⟨trees, hread, hpages⟩ := exists_ok_of_any hpages
  obtain ⟨hplain, hmerges⟩ := of_decide_eq_true hpages
  obtain ⟨merged, hmerged, htexts⟩ := exists_ok_of_any hmerges
  have hdistinct : rosterInput.Distinct := by
    intro prior hsome
    obtain rfl : rosterPrior = prior := Option.some.inj hsome
    decide
  have hcompiled := compile_eq_mergeAll untemplated rosterInput rfl rfl (by decide) hdistinct
    hread hplain fun _ _ _ _ _ _ => rfl
  have hprior : rosterInput.prior.getD [] = rosterPrior := rfl
  rw [hprior, hmerged] at hcompiled
  exact ⟨trees, merged, hread, hplain, hmerged, of_decide_eq_true htexts, hcompiled⟩

end LayeredConfig
