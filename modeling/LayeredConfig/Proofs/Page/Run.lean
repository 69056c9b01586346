import LayeredConfig.Proofs.Page.Splitting
import LayeredConfig.Proofs.Page.Step
import LayeredConfig.Proofs.Tree.Entries

/-!
# A compilation that goes on after errors

A compilation may be stepped on after a step has failed, any number of times, and its
collaborators may answer differently every time.  All the same the course of it is
fixed by the source: one step seeds it, one step splits the source, and from then on
each step takes one page off, in the order of the source, until none is left.

The invariant after the first two steps is that the pages are what the source has
left: after `k` further steps its first `k` pages are gone.

* `after_pages`: the pages and the stage after any number of steps;
* `step_first_page`: the step that puts the overrides in;
* `compilation_runs_forward`: the course of a compilation as a whole.
-/

namespace LayeredConfig

/-! ## Seeding -/

/-- **Entries with new keys are merged as they are**, one behind the other. -/
theorem mergeEntries_of_new {strategy : MergeStrategy} {here : Path} {source dest : Mapping}
    (hnodup : source.keys.Nodup) (hnew : ∀ name ∈ source.keys, name ∉ dest.keys) :
    mergeEntries strategy here source dest = .done (dest ++ source) := by
  induction source generalizing dest with
  | nil => rw [mergeEntries, List.append_nil]
  | cons entry rest ih =>
      obtain ⟨name, v⟩ := entry
      obtain ⟨hname, hrest⟩ := List.nodup_cons.mp hnodup
      have hfree : name ∉ dest.keys := hnew name List.mem_cons_self
      have hnew' : ∀ other ∈ Mapping.keys rest, other ∉ Mapping.keys (dest ++ [(name, v)]) := by
        intro other hother hmem
        rw [Mapping.keys, List.map_append, List.mem_append] at hmem
        rcases hmem with hmem | hmem
        · exact hnew other (List.mem_cons_of_mem _ hother) hmem
        · obtain rfl : other = name := by simpa using hmem
          exact hname hother
      rw [mergeEntries, Mapping.lookup_of_not_mem_keys hfree,
        Mapping.insert_of_not_mem_keys hfree]
      simp only
      rw [ih hrest hnew', List.append_assoc, List.singleton_append]

/-- A mapping without a key twice, merged into nothing, is that mapping. -/
theorem merge_nil {strategy : MergeStrategy} {source : Mapping} (hnodup : source.keys.Nodup) :
    Mapping.merge strategy source [] = .done source :=
  mergeEntries_of_new hnodup fun _ _ => List.not_mem_nil

/-! ## The run -/

/-- The place of a stage in the course of a compilation. -/
def Stage.rank : Stage → Nat
  | .seed => 0
  | .split => 1
  | .render => 2
  | .done => 3

/-- The prior export holds no key twice at its top. -/
def CompileInput.Distinct (input : CompileInput) : Prop :=
  ∀ prior, input.prior = some prior → prior.keys.Nodup

namespace Compilation

/-- The compilation after some steps, whether they failed or not.  The collaborators may
be others at every step. -/
def after (tools : Nat → Tools) (c : Compilation) : Nat → Compilation
  | 0 => c
  | n + 1 => ((c.after tools n).step (tools n)).result

variable {input : CompileInput} {c : Compilation} (tools : Nat → Tools)

/-- A compilation starts with nothing but its input. -/
theorem start_eq (h : start input = .ok c) :
    c.stage = .seed ∧ c.overrides = input.overrides ∧ c.prior = input.prior ∧
      c.running = [] := by
  unfold start at h
  split at h
  · obtain rfl := Except.ok.inj h
    exact ⟨rfl, rfl, rfl, rfl⟩
  · contradiction
  · contradiction

/-- **Seeding never fails.**  It leaves the prior export as the running configuration, or
nothing if there is none. -/
theorem step_start (h : start input = .ok c)
    (hprior : input.Distinct) (tools : Tools) :
    c.step tools =
      .done { c with stage := .split, prior := none, running := input.prior.getD [] } := by
  obtain ⟨hstage, -, hinput, hrunning⟩ := start_eq h
  cases hp : input.prior with
  | none =>
      rw [hp] at hinput
      simp [step, hstage, hinput, hrunning]
  | some prior =>
      rw [hp] at hinput
      simp [step, hstage, hinput, hrunning, merge_nil (hprior prior hp)]

/-- The compilation after it was seeded. -/
theorem after_one (h : start input = .ok c)
    (hprior : input.Distinct) :
    c.after tools 1 =
      { c with stage := .split, prior := none, running := input.prior.getD [] } := by
  rw [after, after, step_start h hprior, Edited.result_done]

/-- The compilation after the source was split, if there are pages. -/
theorem after_two (h : start input = .ok c)
    (hprior : input.Distinct)
    (hpages : splitPages c.source c.settings.pageSeparator ≠ []) :
    c.after tools 2 =
      { c with
        stage := .render
        prior := none
        pages := splitPages c.source c.settings.pageSeparator
        running := input.prior.getD [] } := by
  have hone : c.after tools 1 =
      { c with stage := .split, prior := none, running := input.prior.getD [] } :=
    after_one tools h hprior
  have hsplit : (c.after tools 1).stage = .split := by rw [hone]
  rw [after, step_split_cons hsplit (by rw [hone]; exact hpages), Edited.result_done, hone]

/-- **The source fixes the course.**  After two steps and `k` more the first `k` pages are
gone, and the compilation is done only if all of them are. -/
theorem after_pages (h : start input = .ok c)
    (hprior : input.Distinct) (k : Nat) :
    let pages := splitPages c.source c.settings.pageSeparator
    (c.after tools (k + 2)).pages = pages.drop k ∧
      ((c.after tools (k + 2)).stage = .render ∧ k ≤ pages.length ∨
        (c.after tools (k + 2)).stage = .done ∧ pages.length ≤ k) := by
  intro pages
  induction k with
  | zero =>
      by_cases hpages : pages = []
      · have htwo : c.after tools 2 = finish { c.after tools 1 with pages := [] } := by
          have hsplit : (c.after tools 1).stage = .split := by rw [after_one tools h hprior]
          rw [after, step_split_nil hsplit (by rw [after_one tools h hprior]; exact hpages),
            Edited.result_done]
        rw [htwo, hpages]
        exact ⟨rfl, Or.inr ⟨rfl, Nat.le_refl 0⟩⟩
      · rw [Nat.zero_add, after_two tools h hprior hpages]
        exact ⟨rfl, Or.inl ⟨rfl, Nat.zero_le _⟩⟩
  | succ k ih =>
      obtain ⟨hleft, ⟨hstage, hk⟩ | ⟨hstage, hk⟩⟩ := ih
      · rcases Nat.lt_or_eq_of_le hk with hlt | heq
        · rw [List.drop_eq_getElem_cons hlt] at hleft
          have hnext : (c.after tools (k + 3)).pages = pages.drop (k + 1) ∧
              ((c.after tools (k + 3)).stage = .render ∨
                (c.after tools (k + 3)).stage = .done ∧ pages.drop (k + 1) = []) :=
            step_render_result hstage hleft
          obtain ⟨hrest, hnext⟩ := hnext
          refine ⟨hrest, hnext.imp (fun hrender => ⟨hrender, hlt⟩) (And.imp_right fun hnil => ?_)⟩
          exact List.drop_eq_nil_iff.mp hnil
        · have hnil : (c.after tools (k + 2)).pages = [] := by
            rw [hleft, heq, List.drop_length]
          have hstep : c.after tools (k + 3) = (c.after tools (k + 2)).finish := by
            rw [after, step_render_nil hstage hnil, Edited.result_done]
          rw [hstep, List.drop_eq_nil_iff.mpr (by omega)]
          exact ⟨hnil, Or.inr ⟨rfl, by omega⟩⟩
      · have hstep : c.after tools (k + 3) = c.after tools (k + 2) := by
          rw [after, step_done hstage, Edited.result_done]
        rw [hstep, hleft, List.drop_eq_nil_iff.mpr hk, List.drop_eq_nil_iff.mpr (by omega)]
        exact ⟨rfl, Or.inr ⟨hstage, by omega⟩⟩

/-- The page that is rendered next, in the order of the source. -/
theorem nextPage?_after (h : start input = .ok c)
    (hprior : input.Distinct) (k : Nat) :
    (c.after tools (k + 2)).nextPage? =
      (splitPages c.source c.settings.pageSeparator)[k]? := by
  obtain ⟨hleft, ⟨hstage, -⟩ | ⟨hstage, hk⟩⟩ := after_pages tools h hprior k
  · rw [nextPage?, if_pos hstage, hleft, List.head?_drop]
  · rw [nextPage?, if_neg (by simp [hstage]), List.getElem?_eq_none hk]

/-- The stage moves forward. -/
theorem rank_after_le (h : start input = .ok c) (hprior : input.Distinct) (n : Nat) :
    (c.after tools n).stage.rank ≤ (c.after tools (n + 1)).stage.rank := by
  match n with
  | 0 =>
      have hstage : (c.after tools 0).stage = .seed := (start_eq h).1
      rw [hstage]
      exact Nat.zero_le _
  | 1 =>
      have hstage : (c.after tools 1).stage = .split := by rw [after_one tools h hprior]
      obtain ⟨-, ⟨hnext, -⟩ | ⟨hnext, -⟩⟩ := after_pages tools h hprior 0
      · rw [hstage, hnext]
        decide
      · rw [hstage, hnext]
        decide
  | k + 2 =>
      obtain ⟨-, ⟨hstage, -⟩ | ⟨hstage, -⟩⟩ := after_pages tools h hprior k
      · obtain ⟨-, ⟨hnext, -⟩ | ⟨hnext, -⟩⟩ := after_pages tools h hprior (k + 1)
        · exact Nat.le_of_eq (by rw [hstage, hnext])
        · rw [hstage, hnext]
          decide
      · have hstep : c.after tools (k + 3) = c.after tools (k + 2) := by
          rw [after, step_done hstage, Edited.result_done]
        exact Nat.le_of_eq (by rw [hstep])

/-- A compilation is done after three more steps than it has pages. -/
theorem stage_after_of_le (h : start input = .ok c) (hprior : input.Distinct) {n : Nat}
    (hn : (splitPages c.source c.settings.pageSeparator).length + 3 ≤ n) :
    (c.after tools n).stage = .done := by
  obtain ⟨k, rfl⟩ : ∃ k, n = k + 2 := ⟨n - 2, by omega⟩
  obtain ⟨-, ⟨-, hk⟩ | ⟨hdone, -⟩⟩ := after_pages tools h hprior k
  · omega
  · exact hdone

/-- The course of a compilation that is stepped on, whether steps fail or not. -/
structure RunsForward (c : Compilation) (prior : Option Mapping) (tools : Nat → Tools) :
    Prop where
  /-- The first step seeds, the second one splits the source. -/
  begins : (c.after tools 0).stage = .seed ∧ (c.after tools 1).stage = .split
  /-- The stage never moves back. -/
  forward : ∀ n, (c.after tools n).stage.rank ≤ (c.after tools (n + 1)).stage.rank
  /-- Seeding never fails, and leaves the prior export as the running configuration. -/
  seeds : ((c.after tools 0).step (tools 0)).failure = none ∧
    (c.after tools 1).running = prior.getD []
  /-- The pages are numbered in the order of the source. -/
  numbered : ∀ k (page : Page), (splitPages c.source c.settings.pageSeparator)[k]? = some page →
    page.index = k
  /-- From the third step on, each step takes the first page off that is left. -/
  consumes : ∀ k,
    (c.after tools (k + 2)).nextPage? = (splitPages c.source c.settings.pageSeparator)[k]? ∧
    (c.after tools (k + 2)).pages = (splitPages c.source c.settings.pageSeparator).drop k
  /-- The page that is taken off is the one that is rendered. -/
  renders : ∀ n page, (c.after tools n).nextPage? = some page →
    (c.after tools n).step (tools n) =
      (renderPage (tools n) { c.after tools n with pages := (c.after tools n).pages.tail }
        page).andThen afterPage
  /-- Where none is left, or it is too early, the collaborators do nothing. -/
  idles : ∀ n, (c.after tools n).nextPage? = none →
    ∀ other, (c.after tools n).step other = (c.after tools n).step (tools n)
  /-- Only steps that render a later page than the first look at the templater. -/
  templates : ∀ n, (∀ page, (c.after tools n).nextPage? = some page → page.index = 0) →
    ∀ templater, (c.after tools n).step { tools n with templater } =
      (c.after tools n).step (tools n)
  /-- Only the step that renders the first page looks at the overrides or changes them. -/
  overridesOnce : ∀ n, (∀ page, (c.after tools n).nextPage? = some page → page.index ≠ 0) →
    ∀ overrides, ((c.after tools n).setOverrides overrides).step (tools n) =
      ((c.after tools n).step (tools n)).map (setOverrides · overrides)
  /-- On the first page the overrides are checked and merged in, and what that gives is
  absorbed. -/
  overridesFirst : ∀ n page tree, (c.after tools n).nextPage? = some page → page.index = 0 →
    (tools n).format.readMapping page.text = .ok tree →
    (c.after tools n).overrides.isEmpty = false →
      let checked := (c.after tools n).overrides.validate (c.after tools n).running tree
      (∀ e, checked.failure = some e → ((c.after tools n).step (tools n)).failure = some e) ∧
      (∀ cause, checked.failure = none → (checked.result.apply tree).failure = some cause →
        ((c.after tools n).step (tools n)).failure = some (.conflict cause)) ∧
      ∀ merged, checked.failure = none → checked.result.apply tree = .done merged →
        (c.after tools n).step (tools n) =
          ((absorb (c.after tools n).settings (c.after tools n).running merged).map
            fun running =>
              { c.after tools n with
                pages := (c.after tools n).pages.tail
                overrides := checked.result
                running }).andThen afterPage
  /-- A failure before the merge leaves the running configuration as it is. -/
  keeps : ∀ n e, ((c.after tools n).step (tools n)).failure = some e → e.PrecedesMerge →
    (c.after tools (n + 1)).running = (c.after tools n).running
  /-- Three more steps than there are pages end the compilation. -/
  ends : ∀ n, (splitPages c.source c.settings.pageSeparator).length + 3 ≤ n →
    (c.after tools n).stage = .done
  /-- Then nothing fails and nothing changes. -/
  rests : ∀ n, (c.after tools n).stage = .done →
    (c.after tools n).step (tools n) = .done (c.after tools n)

end Compilation

/-- **A compilation runs forward.**  So does every compilation of one source, whatever its
overrides, prior export and settings are, and whatever its collaborators answer. -/
theorem compilation_runs_forward (input : CompileInput) (c : Compilation)
    (hstart : Compilation.start input = .ok c) (hprior : input.Distinct)
    (tools : Nat → Tools) : c.RunsForward input.prior tools where
  begins := ⟨(Compilation.start_eq hstart).1, by
    rw [Compilation.after_one tools hstart hprior]⟩
  forward := Compilation.rank_after_le tools hstart hprior
  seeds := ⟨congrArg Edited.failure (Compilation.step_start hstart hprior (tools 0)), by
    rw [Compilation.after_one tools hstart hprior]⟩
  numbered := fun _ _ => index_of_getElem?_splitPages
  consumes := fun k => ⟨Compilation.nextPage?_after tools hstart hprior k,
    (Compilation.after_pages tools hstart hprior k).1⟩
  renders := fun _ _ => Compilation.step_of_nextPage?
  idles := fun _ => Compilation.step_of_nextPage?_eq_none
  templates := fun _ => Compilation.step_with_templater
  overridesOnce := fun _ => Compilation.step_setOverrides
  overridesFirst := fun _ _ _ => Compilation.step_first_page
  keeps := fun _ _ => Compilation.step_of_precedesMerge
  ends := fun _ => Compilation.stage_after_of_le tools hstart hprior
  rests := fun _ => Compilation.step_done

/-- Two pages on top of a prior export. -/
def twoPageInput : CompileInput :=
  { sources := ["a: 1\n---\nb: 2"]
    overrides := .empty
    prior := some [("kept", .bool true)]
    settings := .standard }

/-- The compilation of two pages, before its first step. -/
def twoPageStart : Compilation :=
  { stage := .seed
    source := "a: 1\n---\nb: 2"
    overrides := .empty
    prior := some [("kept", .bool true)]
    settings := .standard
    pages := []
    running := [] }

/-- With a templater that always refuses, two pages are consumed all the same, and five
steps end the compilation. -/
theorem twoPageStart_runs_forward :
    Compilation.start twoPageInput = .ok twoPageStart ∧ twoPageInput.Distinct ∧
      (twoPageStart.after (fun _ => ⟨fun _ _ => none, .yaml⟩) 1).running =
        [("kept", .bool true)] ∧
      (twoPageStart.after (fun _ => ⟨fun _ _ => none, .yaml⟩) 3).nextPage? =
        some ⟨1, ["b: 2"]⟩ ∧
      (twoPageStart.after (fun _ => ⟨fun _ _ => none, .yaml⟩) 5).stage = .done := by
  have hstart : Compilation.start twoPageInput = .ok twoPageStart := rfl
  have hprior : twoPageInput.Distinct := by
    intro prior hsome
    obtain rfl : [("kept", .bool true)] = prior := Option.some.inj hsome
    decide
  have hruns := compilation_runs_forward twoPageInput twoPageStart hstart hprior
    fun _ => ⟨fun _ _ => none, .yaml⟩
  refine ⟨hstart, hprior, hruns.seeds.2, (hruns.consumes 1).1.trans ?_, hruns.ends 5 ?_⟩
  · decide
  · decide

end LayeredConfig
