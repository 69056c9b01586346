import LayeredConfig.Proofs.Override.Filing
import LayeredConfig.Proofs.Page.Run
import LayeredConfig.Proofs.Page.Strictness
import LayeredConfig.Proofs.Placeholder.Anchor
import LayeredConfig.Proofs.Resolve.Snapshot
import LayeredConfig.Proofs.Tree.Merge

/-!
# What a page does to one node

A page is merged into the running configuration, anchored there and resolved against a
snapshot of the outcome.  While keys are left alone, the last two replace texts and do
nothing else, so what a page does to a node is told by the node that the merge leaves at
its path:

* it is anchored, and each text becomes what resolving it against the snapshot gives
  (`get?_absorb`);
* a node whose texts open no placeholder stays (`get?_absorb_of_plain`).

A page that succeeds does just this to the tree it brings, and the last page may be followed
by a clearing of what is still unresolved (`step_running`), which leaves such a node as well
(`step_plain`).  From page to page the running configuration stays well formed
(`wellFormed_after`), and so does what the compilation gives in the end (`wellFormed_compile`).
-/

namespace LayeredConfig

open Placeholder

/-- A value whose texts open no placeholder is not changed by a function that keeps those
texts. -/
theorem Value.mapText_of_plain {f : String → Value} {v : Value}
    (hf : ∀ text, Plain text → f text = .str text) (h : ∀ text ∈ v.texts, Plain text) :
    v.mapText f = v :=
  mapText_of_kept fun text htext => hf text (h text htext)

/-- Items whose texts open no placeholder stay, whatever becomes of the items before them. -/
theorem Value.mapText_seq_append_of_plain {f : String → Value} {items : List Value}
    (hf : ∀ text, Plain text → f text = .str text)
    (h : ∀ text ∈ (Value.seq items).texts, Plain text) (old : List Value) :
    ∃ old', old'.length = old.length ∧
      (Value.seq (old ++ items)).mapText f = .seq (old' ++ items) := by
  rw [mapText_eq_rewrite f _ []]
  refine rewrite_seq_append_of_kept old fun v hv text htext _ => hf text (h text ?_)
  rw [texts_seq]
  exact List.mem_flatMap.mpr ⟨v, hv, htext⟩

theorem snapshotText_of_plain {options : ResolverOptions} {name : String} {data : Mapping}
    {text : String} (h : Plain text) : snapshotText options name data text = .str text :=
  Value.settledText_of_plain (contains_of_plain h)

theorem clearText_of_plain {text : String} (h : Plain text) : clearText text = .str text := by
  rw [clearText, contains_of_plain h]
  rfl

/-- Clearing leaves a node whose texts open no placeholder. -/
theorem Mapping.get?_clearUnresolved_of_plain {tree : Mapping} {p : Path} {v : Value}
    (h : tree.get? p = some v) (hplain : ∀ text ∈ v.texts, Plain text) :
    tree.clearUnresolved.get? p = some v := by
  have hnode : tree.clearUnresolved.get? p = some (v.mapText clearText) :=
    get?_mapTextEntries h
  rw [hnode, Value.mapText_of_plain (fun _ => clearText_of_plain) hplain]

namespace Compilation

/-! ## Absorbing a tree -/

/-- The layer that a tree is resolved against: the running configuration with the tree merged
in and its references anchored. -/
def snapshot (running tree : Mapping) : Mapping :=
  (Mapping.merge .append tree running).result.anchor.result

section Absorb

variable {settings : Settings} {running tree out : Mapping}

/-- Absorbing keeps the running configuration well formed, also if it fails. -/
theorem wellFormed_absorb (settings : Settings) (hrunning : (Value.map running).WellFormed)
    (htree : (Value.map tree).WellFormed) :
    (Value.map (absorb settings running tree).result).WellFormed := by
  have hwf : (Value.map (Mapping.merge .append tree running).result).WellFormed :=
    Mapping.wellFormed_merge htree hrunning
  have hwf' := Mapping.wellFormed_anchoredForm hwf
  rw [absorb]
  split
  · exact hwf
  · rw [Mapping.anchor_eq_rewrite hwf]
    refine Resolver.wellFormed_resolveAll (fun pass hpass => ?_) hwf'
    obtain rfl := List.mem_singleton.mp hpass
    exact hwf'

/-- **What absorbing a tree gives**: its snapshot, with every text replaced by what resolving
it alone gives. -/
theorem absorb_eq_done (hkeys : settings.keyResolution = false)
    (hrunning : (Value.map running).WellFormed) (htree : (Value.map tree).WellFormed)
    (h : absorb settings running tree = .done out) :
    ∃ merged, Mapping.merge .append tree running = .done merged ∧
      (Value.map merged).WellFormed ∧ snapshot running tree = merged.anchoredForm ∧
      out = Value.mapTextEntries
        (snapshotText settings.resolverOptions "running config" (snapshot running tree))
        (snapshot running tree) ∧
      (Value.map out).WellFormed := by
  have hdone := h
  simp only [absorb] at h
  split at h
  · cases h
  · next hmerged =>
      have hwf : (Value.map (Mapping.merge .append tree running).result).WellFormed :=
        Mapping.wellFormed_merge htree hrunning
      have hanchor := Mapping.anchor_eq_rewrite hwf
      have hsnapshot : snapshot running tree =
          (Mapping.merge .append tree running).result.anchoredForm := by
        rw [snapshot, hanchor, Edited.result_done]
      have hresolved : (Resolver.single settings.resolverOptions "running config"
          (snapshot running tree)).resolveAll (snapshot running tree) = .done out := by
        rw [hsnapshot]
        simp only [hanchor, Edited.failure_done, Edited.result_done] at h
        have hnone := Option.map_eq_none_iff.mp (congrArg Edited.failure h)
        have hresult := congrArg Edited.result h
        exact (Edited.eq_done hnone).trans (congrArg Edited.done hresult)
      have hout : (Value.map out).WellFormed := by
        have hkept := wellFormed_absorb settings hrunning htree
        rwa [hdone] at hkept
      exact ⟨_, Edited.eq_done hmerged, hwf, hsnapshot,
        Resolver.resolveAll_single hkeys hresolved, hout⟩

variable (hkeys : settings.keyResolution = false) (hrunning : (Value.map running).WellFormed)
  (htree : (Value.map tree).WellFormed) (h : absorb settings running tree = .done out)
  {merged : Mapping} (hmerged : Mapping.merge .append tree running = .done merged) {p : Path}
  {v : Value} (hv : merged.get? p = some v)

include hkeys hrunning htree h hmerged hv

/-- **What a page makes of a node**: the node that the merge left at the path, anchored, and
with each text resolved. -/
theorem get?_absorb :
    out.get? p = some ((v.rewrite Value.anchoredLeaf p).mapText
      (snapshotText settings.resolverOptions "running config" (snapshot running tree))) := by
  obtain ⟨merged', hmerged', -, hsnapshot, rfl, -⟩ := absorb_eq_done hkeys hrunning htree h
  have hsame : merged' = merged := congrArg Edited.result (hmerged'.symm.trans hmerged)
  have hnode : (snapshot running tree).get? p = some (v.rewrite Value.anchoredLeaf p) := by
    rw [hsnapshot, hsame]
    exact Mapping.get?_anchoredForm hv
  exact Mapping.get?_mapTextEntries hnode

/-- Items whose texts open no placeholder stay at the end of a sequence. -/
theorem get?_absorb_seq_append {old items : List Value} (hseq : v = .seq (old ++ items))
    (hplain : ∀ text ∈ (Value.seq items).texts, Plain text) :
    ∃ old', old'.length = old.length ∧ out.get? p = some (.seq (old' ++ items)) := by
  subst hseq
  have hnode := get?_absorb hkeys hrunning htree h hmerged hv
  obtain ⟨anchored, hlength, hanchored⟩ : ∃ anchored : List Value,
      anchored.length = old.length ∧
        (Value.seq (old ++ items)).rewrite Value.anchoredLeaf p = .seq (anchored ++ items) := by
    refine Value.rewrite_seq_append_of_kept old fun v hv text htext q => ?_
    have hmem : text ∈ (Value.seq items).texts := by
      rw [Value.texts_seq]
      exact List.mem_flatMap.mpr ⟨v, hv, htext⟩
    simp [Value.anchoredLeaf, anchored?, hasRelative_of_plain (hplain text hmem)]
  obtain ⟨resolved, hlength', hresolved⟩ :=
    Value.mapText_seq_append_of_plain (fun _ => snapshotText_of_plain) hplain anchored
  rw [hanchored, hresolved] at hnode
  exact ⟨resolved, hlength'.trans hlength, hnode⟩

/-- Without relative references there is nothing to anchor. -/
theorem get?_absorb_of_kept (hrelative : ∀ text ∈ v.texts, hasRelative text.toList = false) :
    out.get? p = some (v.mapText
      (snapshotText settings.resolverOptions "running config" (snapshot running tree))) := by
  have hnode := get?_absorb hkeys hrunning htree h hmerged hv
  rwa [Value.rewrite_anchoredLeaf_of_kept hrelative] at hnode

/-- A node in which no placeholder opens is what the merge left. -/
theorem get?_absorb_of_plain (hplain : ∀ text ∈ v.texts, Plain text) :
    out.get? p = some v := by
  have hnode := get?_absorb_of_kept hkeys hrunning htree h hmerged hv
    fun text htext => hasRelative_of_plain (hplain text htext)
  rw [hnode, Value.mapText_of_plain (fun _ => snapshotText_of_plain) hplain]

end Absorb

/-! ## A step that renders a page -/

variable {tools : Tools} {c : Compilation}

/-- The tree that the next step absorbs: the tree of the page, with the overrides in it if it
is the first one. -/
def incoming (tools : Tools) (c : Compilation) : Option Mapping :=
  c.nextPage?.bind fun page =>
    (pageTree tools page c.running).toOption.bind fun tree =>
      (c.withOverrides page tree).2.toOption

/-- The pages that are left do not matter to the overrides. -/
theorem withOverrides_pages (c : Compilation) (pages : List Page) (page : Page)
    (tree : Mapping) :
    { c with pages }.withOverrides page tree =
      ({ (c.withOverrides page tree).1 with pages }, (c.withOverrides page tree).2) := by
  rw [withOverrides_of_same (c := c) (d := { c with pages }) rfl rfl, c.withOverrides_fst]

/-- **A page that succeeds** brings a tree, which is absorbed. -/
theorem renderPage_eq_done {page : Page} {pages : List Page} {c' : Compilation}
    (h : renderPage tools { c with pages } page = .done c') :
    ∃ tree merged out, pageTree tools page c.running = .ok tree ∧
      (c.withOverrides page tree).2 = .ok merged ∧
      absorb c.settings c.running merged = .done out ∧
      c' = { (c.withOverrides page tree).1 with pages, running := out } := by
  rw [renderPage] at h
  cases htree : pageTree tools page c.running with
  | error e =>
      simp only [htree] at h
      cases h
  | ok tree =>
      simp only [htree, withOverrides_pages] at h
      obtain ⟨overrides, ⟨e, hover⟩ | ⟨merged, hover⟩⟩ := c.withOverrides_cases page tree
      · simp only [hover] at h
        cases h
      · simp only [hover] at h
        have hfailure : (absorb c.settings c.running merged).failure = none :=
          congrArg Edited.failure h
        refine ⟨tree, merged, _, rfl, by rw [hover], Edited.eq_done hfailure, ?_⟩
        rw [hover]
        exact (congrArg Edited.result h).symm

/-- What follows a page changes the running configuration only if it was the last page, and
then only by clearing it. -/
theorem running_afterPage (c : Compilation) :
    (afterPage c).result.running = c.running ∨
      c.pages = [] ∧ (afterPage c).result.running = c.running.clearUnresolved := by
  unfold afterPage
  by_cases hpages : c.pages.isEmpty
  · rw [if_pos hpages]
    by_cases hnull : c.settings.nullUnresolved
    · exact Or.inr ⟨List.isEmpty_iff.mp hpages, if_pos hnull⟩
    · exact Or.inl (if_neg hnull)
  · rw [if_neg hpages]
    exact Or.inl rfl

/-- **A step that renders a page and succeeds** absorbs the tree that comes in. -/
theorem step_running {page : Page} (hnext : c.nextPage? = some page)
    (hok : (c.step tools).failure = none) :
    ∃ tree out, c.incoming tools = some tree ∧ absorb c.settings c.running tree = .done out ∧
      ((c.step tools).result.running = out ∨
        c.pages.tail = [] ∧ (c.step tools).result.running = out.clearUnresolved) := by
  rw [step_of_nextPage? hnext] at hok ⊢
  rw [failure_andThen_afterPage] at hok
  have hrender := Edited.eq_done hok
  obtain ⟨tree, merged, out, htree, hmerged, habsorb, hresult⟩ := renderPage_eq_done hrender
  refine ⟨merged, out, ?_, habsorb, ?_⟩
  · rw [incoming, hnext, Option.bind_some, htree]
    simp only [Except.toOption, Option.bind_some, hmerged]
  · rw [hrender, Edited.done_andThen, hresult]
    exact running_afterPage _

/-! ## Well-formed compilations -/

/-- No mapping that the compilation holds has a key twice. -/
structure WellFormed (c : Compilation) : Prop where
  running : (Value.map c.running).WellFormed
  overrides : (Value.map c.overrides.nested).WellFormed
  prior : ∀ prior, c.prior = some prior → (Value.map prior).WellFormed

theorem wellFormed_clearUnresolved {tree : Mapping} (h : (Value.map tree).WellFormed) :
    (Value.map tree.clearUnresolved).WellFormed := by
  have hclear : ∀ text, (clearText text).WellFormed := by
    intro text
    rw [clearText]
    split <;> trivial
  exact h.mapText hclear

theorem WellFormed.finish (hc : c.WellFormed) : c.finish.WellFormed where
  running := by
    have hcases : c.finish.running = c.running.clearUnresolved ∨ c.finish.running = c.running := by
      by_cases hnull : c.settings.nullUnresolved
      · exact Or.inl (if_pos hnull)
      · exact Or.inr (if_neg hnull)
    rcases hcases with hrunning | hrunning
    · exact hrunning ▸ wellFormed_clearUnresolved hc.running
    · exact hrunning ▸ hc.running
  overrides := hc.overrides
  prior := hc.prior

/-- The overrides stay well formed when they are put in, and so does what they are put
into. -/
theorem WellFormed.withOverrides (hc : c.WellFormed) {page : Page} {tree merged : Mapping}
    (htree : (Value.map tree).WellFormed) (h : (c.withOverrides page tree).2 = .ok merged) :
    (Value.map (c.withOverrides page tree).1.overrides.nested).WellFormed ∧
      (Value.map merged).WellFormed := by
  have hchecked := Overrides.wellFormed_validate hc.overrides c.running tree
  by_cases hfirst : page.index = 0 ∧ ¬ c.overrides.isEmpty = true
  · cases hvalid : (c.overrides.validate c.running tree).failure with
    | some e => simp [Compilation.withOverrides, hfirst, hvalid] at h
    | none =>
        cases hmerge : ((c.overrides.validate c.running tree).result.apply tree).failure with
        | some e => simp [Compilation.withOverrides, hfirst, hvalid, hmerge] at h
        | none =>
            simp only [Compilation.withOverrides, if_pos hfirst, hvalid, hmerge] at h ⊢
            exact ⟨hchecked, Except.ok.inj h ▸ Mapping.wellFormed_merge hchecked htree⟩
  · have hplain : c.withOverrides page tree = (c, .ok tree) := if_neg hfirst
    rw [hplain] at h ⊢
    exact ⟨hc.overrides, Except.ok.inj h ▸ htree⟩

theorem wellFormed_pageTree (htools : tools.format.Tidy) {page : Page} {running tree : Mapping}
    (h : pageTree tools page running = .ok tree) : (Value.map tree).WellFormed := by
  obtain ⟨text, -, h⟩ := bind_ok h
  split at h
  · next read hread => exact Except.ok.inj h ▸ htools.readMapping hread
  · contradiction

/-- The tree that comes in is well formed. -/
theorem WellFormed.incoming (hc : c.WellFormed) (htools : tools.format.Tidy) {tree : Mapping}
    (h : c.incoming tools = some tree) : (Value.map tree).WellFormed := by
  obtain ⟨page, -, h⟩ := Option.bind_eq_some_iff.mp h
  obtain ⟨read, hread, hmerged⟩ := Option.bind_eq_some_iff.mp h
  have hok : ∀ {α : Type} {r : Except Error α} {a : α}, r.toOption = some a → r = .ok a := by
    rintro α (e | b) a h
    · cases h
    · exact congrArg Except.ok (Option.some.inj h)
  exact (hc.withOverrides (wellFormed_pageTree htools (hok hread)) (hok hmerged)).2

/-- **A step that succeeds** leaves a well-formed compilation. -/
theorem WellFormed.step (hc : c.WellFormed) (htools : tools.format.Tidy)
    (hok : (c.step tools).failure = none) :
    (c.step tools).result.WellFormed := by
  cases hstage : c.stage with
  | seed =>
      cases hprior : c.prior with
      | none =>
          simp only [Compilation.step, hstage, hprior, Edited.result_done]
          exact ⟨hc.running, hc.overrides, by simp⟩
      | some prior =>
          have hseeded : (Value.map (Mapping.merge .append prior c.running).result).WellFormed :=
            Mapping.wellFormed_merge (hc.prior prior hprior) hc.running
          simp only [Compilation.step, hstage, hprior]
          split
          · exact ⟨hseeded, hc.overrides, fun _ h => absurd h.symm (Option.some_ne_none _)⟩
          · exact ⟨hseeded, hc.overrides, fun _ h => absurd h.symm (Option.some_ne_none _)⟩
  | split =>
      by_cases hpages : splitPages c.source c.settings.pageSeparator = []
      · rw [step_split_nil hstage hpages]
        exact WellFormed.finish ⟨hc.running, hc.overrides, hc.prior⟩
      · rw [step_split_cons hstage hpages]
        exact ⟨hc.running, hc.overrides, hc.prior⟩
  | render =>
      cases hpages : c.pages with
      | nil =>
          rw [step_render_nil hstage hpages]
          exact hc.finish
      | cons page rest =>
          rw [step_render_cons hstage hpages] at hok ⊢
          rw [failure_andThen_afterPage] at hok
          have hrender := Edited.eq_done hok
          obtain ⟨tree, merged, out, htree, hmerged, habsorb, hresult⟩ :=
            renderPage_eq_done hrender
          obtain ⟨hnested, hwf⟩ := hc.withOverrides (wellFormed_pageTree htools htree) hmerged
          have hout : (Value.map out).WellFormed := by
            have hkept := wellFormed_absorb c.settings hc.running hwf
            rwa [habsorb] at hkept
          have hprior : (c.withOverrides page tree).1.prior = c.prior := by
            rw [c.withOverrides_fst]
          have hnext : ((renderPage tools { c with pages := rest } page).result).WellFormed := by
            rw [hresult]
            exact ⟨hout, hnested, fun prior h => hc.prior prior (hprior ▸ h)⟩
          rw [hrender, Edited.done_andThen, afterPage]
          split
          · exact hnext.finish
          · exact hnext
  | done =>
      rw [step_done hstage]
      exact hc

/-! ## One node after a step -/

section Node

variable {page : Page} (hc : c.WellFormed) (htools : tools.format.Tidy)
  (hkeys : c.settings.keyResolution = false) (hnext : c.nextPage? = some page)
  (hok : (c.step tools).failure = none)

include hc htools hkeys hnext hok

/-- A step that succeeds merges the tree that comes in. -/
theorem step_merges :
    ∃ tree merged, c.incoming tools = some tree ∧ (Value.map tree).WellFormed ∧
      Mapping.merge .append tree c.running = .done merged := by
  obtain ⟨tree, out, htree, habsorb, -⟩ := step_running hnext hok
  have hwf : (Value.map tree).WellFormed := hc.incoming htools htree
  obtain ⟨merged, hmerged, -, -, -, -⟩ := absorb_eq_done hkeys hc.running hwf habsorb
  exact ⟨tree, merged, htree, hwf, hmerged⟩

variable {tree merged : Mapping} (htree : c.incoming tools = some tree)
  (hmerged : Mapping.merge .append tree c.running = .done merged) {p : Path} {v : Value}

include htree hmerged

/-- **A node in which no placeholder opens** is after the step what the merge left. -/
theorem step_plain (hv : merged.get? p = some v) (hplain : ∀ text ∈ v.texts, Plain text) :
    (c.step tools).result.running.get? p = some v := by
  obtain ⟨tree', out, htree', habsorb, hafter⟩ := step_running hnext hok
  obtain rfl : tree = tree' := Option.some.inj (htree.symm.trans htree')
  have hwf : (Value.map tree).WellFormed := hc.incoming htools htree
  have hout := get?_absorb_of_plain hkeys hc.running hwf habsorb hmerged hv hplain
  rcases hafter with hafter | ⟨-, hafter⟩
  · rw [hafter, hout]
  · rw [hafter]
    exact Mapping.get?_clearUnresolved_of_plain hout hplain

/-- **Items in which no placeholder opens** stay at the end of a sequence. -/
theorem step_seq_append {old items : List Value}
    (hv : merged.get? p = some (.seq (old ++ items)))
    (hplain : ∀ text ∈ (Value.seq items).texts, Plain text) :
    ∃ old', old'.length = old.length ∧
      (c.step tools).result.running.get? p = some (.seq (old' ++ items)) := by
  obtain ⟨tree', out, htree', habsorb, hafter⟩ := step_running hnext hok
  obtain rfl : tree = tree' := Option.some.inj (htree.symm.trans htree')
  have hwf : (Value.map tree).WellFormed := hc.incoming htools htree
  obtain ⟨old', hlength, hout⟩ :=
    get?_absorb_seq_append hkeys hc.running hwf habsorb hmerged hv rfl hplain
  rcases hafter with hafter | ⟨-, hafter⟩
  · exact ⟨old', hlength, hafter ▸ hout⟩
  · obtain ⟨cleared, hlength', hcleared⟩ :=
      Value.mapText_seq_append_of_plain (fun _ => clearText_of_plain) hplain old'
    refine ⟨cleared, hlength'.trans hlength, ?_⟩
    rw [hafter, ← hcleared]
    exact Mapping.get?_mapTextEntries hout

end Node

/-! ## The run -/

/-- A step does not change the settings, so they are those of the start. -/
theorem settings_after (tools : Nat → Tools) (c : Compilation) (n : Nat) :
    (c.after tools n).settings = c.settings := by
  induction n with
  | zero => rfl
  | succ n ih => rw [after, step_settings, ih]

/-- The running configuration after the page with an index. -/
def runningAfter (tools : Nat → Tools) (c : Compilation) (k : Nat) : Mapping :=
  (c.after tools (k + 3)).running

/-- Only seeding and pages can fail. -/
theorem failure_of_nextPage?_eq_none (h : c.nextPage? = none) (hstage : c.stage ≠ .seed) :
    (c.step tools).failure = none := by
  cases hcase : c.stage with
  | seed => exact absurd hcase hstage
  | split =>
      by_cases hpages : splitPages c.source c.settings.pageSeparator = []
      · rw [step_split_nil hcase hpages]
        rfl
      · rw [step_split_cons hcase hpages]
        rfl
  | render =>
      have hpages : c.pages = [] := by simpa [nextPage?, hcase] using h
      rw [step_render_nil hcase hpages]
      rfl
  | done =>
      rw [step_done hcase]
      rfl

end Compilation

/-- No mapping that a compilation starts from holds a key twice. -/
structure CompileInput.WellFormed (input : CompileInput) : Prop where
  overrides : (Value.map input.overrides.nested).WellFormed
  prior : ∀ prior, input.prior = some prior → (Value.map prior).WellFormed

theorem CompileInput.WellFormed.distinct {input : CompileInput} (h : input.WellFormed) :
    input.Distinct :=
  fun prior hprior => (Value.wellFormed_map.mp (h.prior prior hprior)).1

namespace Compilation

variable {input : CompileInput} {c : Compilation} {tools : Nat → Tools}

/-- A compilation of well-formed parts starts well formed. -/
theorem wellFormed_start (hstart : start input = .ok c) (hinput : input.WellFormed) :
    c.WellFormed := by
  obtain ⟨-, hoverrides, hprior, hrunning⟩ := start_eq hstart
  refine ⟨?_, ?_, fun prior hp => hinput.prior prior (hprior ▸ hp)⟩
  · rw [hrunning]
    exact Value.wellFormed_map.mpr ⟨List.nodup_nil, nofun⟩
  · rw [hoverrides]
    exact hinput.overrides

/-- **From page to page everything stays well formed**, as long as the pages succeed. -/
theorem wellFormed_after (hstart : start input = .ok c) (hinput : input.WellFormed)
    (htools : ∀ n, (tools n).format.Tidy)
    (hpages : ∀ n page, (c.after tools n).nextPage? = some page →
      ((c.after tools n).step (tools n)).failure = none) (n : Nat) :
    (c.after tools n).WellFormed := by
  induction n with
  | zero => exact wellFormed_start hstart hinput
  | succ n ih =>
      have hok : ((c.after tools n).step (tools n)).failure = none := by
        cases hnext : (c.after tools n).nextPage? with
        | some page => exact hpages n page hnext
        | none =>
            cases n with
            | zero =>
                -- an export is merged into an empty configuration, where nothing conflicts
                exact congrArg Edited.failure (step_start hstart hinput.distinct (tools 0))
            | succ n =>
                have hstage : (c.after tools (n + 1)).stage ≠ .seed := by
                  cases n with
                  | zero => simp [after_one tools hstart hinput.distinct]
                  | succ n =>
                      obtain ⟨-, ⟨hstage, -⟩ | ⟨hstage, -⟩⟩ :=
                        after_pages tools hstart hinput.distinct n <;> simp [hstage]
                exact failure_of_nextPage?_eq_none hnext hstage
      exact ih.step (htools n) hok

/-- A run that succeeds leaves a well-formed compilation. -/
theorem WellFormed.runToEnd {tools : Tools} (htools : tools.format.Tidy) {bound : Nat}
    (hc : c.WellFormed) {c' : Compilation} (h : c.runToEnd tools bound = .done c') :
    c'.WellFormed := by
  induction bound generalizing c with
  | zero =>
      obtain rfl : c = c' := congrArg Edited.result h
      exact hc
  | succ bound ih =>
      obtain ⟨hstep, hrest⟩ := Edited.andThen_eq_done h
      have hnext := hc.step htools (congrArg Edited.failure hstep)
      by_cases hdone : (c.step tools).result.stage = .done
      · rw [if_pos hdone] at hrest
        obtain rfl : (c.step tools).result = c' := congrArg Edited.result hrest
        exact hnext
      · rw [if_neg hdone] at hrest
        exact ih hnext hrest

end Compilation

/-- **What a compilation gives is well formed**, whatever its settings are. -/
theorem wellFormed_compile {tools : Tools} (htools : tools.format.Tidy) {input : CompileInput}
    (hinput : input.WellFormed) {tree : Mapping} (h : compile tools input = .ok tree) :
    (Value.map tree).WellFormed := by
  obtain ⟨c, hstart, h⟩ := bind_ok h
  obtain ⟨finished, hrun, h⟩ := bind_ok h
  have hfinished := (Compilation.wellFormed_start hstart hinput).runToEnd htools
    (Edited.toExcept_eq_ok hrun)
  exact Except.ok.inj h ▸ hfinished.running

/-- YAML pages without templates. -/
def untemplated : Tools := ⟨fun text _ => some text, .yaml⟩

end LayeredConfig
