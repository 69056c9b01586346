import LayeredConfig.Proofs.Page.Absorb
import LayeredConfig.Proofs.Placeholder.Rooted

/-!
# References to later pages

A placeholder may name what only a later page defines.  It waits in the running
configuration: each page merges around it, anchors around it and resolves around it, since
the snapshot of the page holds nothing at its path.  The first page whose snapshot does
hold something there puts it in the place of the placeholder, and from then on there is no
placeholder left that a later page could touch.

Three things about one page carry this: a pending placeholder stays pending
(`step_pending`), it is filled once its target is there (`step_filled`), and what was filled
in stays (`step_settled`).  The main statement is `forward_references_resolve`, for any
number of pages before, between and behind.
-/

namespace LayeredConfig

open Placeholder

/-! ## A placeholder that spells a path -/

section Rooted

variable {name : String} {names : List String} (hnames : ∀ n ∈ name :: names, Nameable n)

include hnames

theorem hasRelative_wrap_rooted :
    hasRelative (wrap (Path.ofKeys (name :: names)).rooted).toList = false := by
  refine hasRelative_wrap (inert_rooted hnames) ?_
  rw [Path.toList_rooted_ofKeys_cons]
  rfl

end Rooted

namespace Compilation

/-! ## One page -/

section Step

variable {tools : Tools} {c : Compilation} {page : Page} {q : List String} (hc : c.WellFormed)
  (htools : tools.format.Tidy) (hkeys : c.settings.keyResolution = false)
  (hnext : c.nextPage? = some page) (hok : (c.step tools).failure = none)
  (hspares : ∀ tree, c.incoming tools = some tree → (Value.map tree).Spares (Path.ofKeys q))

include hc htools hkeys hnext hok hspares

/-- A node that the tree of a page spares is what was there, with each text resolved. -/
theorem step_spared {w : Value} (hw : c.running.get? (Path.ofKeys q) = some w)
    (hrelative : ∀ text ∈ w.texts, hasRelative text.toList = false) :
    ∃ tree out, c.incoming tools = some tree ∧
      out.get? (Path.ofKeys q) = some (w.mapText
        (snapshotText c.settings.resolverOptions "running config" (snapshot c.running tree))) ∧
      ((c.step tools).result.running = out ∨
        c.pages.tail = [] ∧ (c.step tools).result.running = out.clearUnresolved) := by
  obtain ⟨tree, out, htree, habsorb, hafter⟩ := step_running hnext hok
  have hwf : (Value.map tree).WellFormed := hc.incoming htools htree
  obtain ⟨merged, hmerged, -, -, -, -⟩ := absorb_eq_done hkeys hc.running hwf habsorb
  have hkept : merged.get? (Path.ofKeys q) = some w :=
    Mapping.get?_merge_of_spares hwf hmerged (hspares tree htree) hw
  have hout := get?_absorb_of_kept hkeys hc.running hwf habsorb hmerged hkept hrelative
  exact ⟨tree, out, htree, hout, hafter⟩

/-- **What is settled stays**: a spared node in which no placeholder opens. -/
theorem step_settled {w : Value} (hw : c.running.get? (Path.ofKeys q) = some w)
    (hplain : ∀ text ∈ w.texts, Plain text) :
    (c.step tools).result.running.get? (Path.ofKeys q) = some w := by
  obtain ⟨tree, merged, htree, hwf, hmerged⟩ := step_merges hc htools hkeys hnext hok
  have hkept : merged.get? (Path.ofKeys q) = some w :=
    Mapping.get?_merge_of_spares hwf hmerged (hspares tree htree) hw
  exact step_plain hc htools hkeys hnext hok htree hmerged hkept hplain

variable {name : String} {names : List String} (hnames : ∀ n ∈ name :: names, Nameable n)
  (hw : c.running.get? (Path.ofKeys q) =
    some (.str (wrap (Path.ofKeys (name :: names)).rooted)))

include hnames hw

/-- What a page makes of a placeholder that it spares, the only thing at its path. -/
theorem step_placeholder :
    ∃ tree out, c.incoming tools = some tree ∧
      out.get? (Path.ofKeys q) =
        some (snapshotText c.settings.resolverOptions "running config" (snapshot c.running tree)
          (wrap (Path.ofKeys (name :: names)).rooted)) ∧
      ((c.step tools).result.running = out ∨
        c.pages.tail = [] ∧ (c.step tools).result.running = out.clearUnresolved) := by
  have hrelative : ∀ text ∈ (Value.str (wrap (Path.ofKeys (name :: names)).rooted)).texts,
      hasRelative text.toList = false := by
    intro text htext
    rw [List.mem_singleton.mp htext]
    exact hasRelative_wrap_rooted hnames
  obtain ⟨tree, out, htree, hout, hafter⟩ :=
    step_spared hc htools hkeys hnext hok hspares hw hrelative
  rw [Value.mapText] at hout
  exact ⟨tree, out, htree, hout, hafter⟩

/-- **A placeholder stays pending** while the snapshot holds nothing at its path. -/
theorem step_pending (hlenient : c.settings.failOnUnresolvable = false)
    (hnone : ∀ tree, c.incoming tools = some tree →
      Value.nonNull? ((snapshot c.running tree).get? (Path.ofKeys (name :: names))) = none)
    (hmore : c.pages.tail ≠ []) :
    (c.step tools).result.running.get? (Path.ofKeys q) =
      some (.str (wrap (Path.ofKeys (name :: names)).rooted)) := by
  obtain ⟨tree, out, htree, hout, hafter⟩ :=
    step_placeholder hc htools hkeys hnext hok hspares hnames hw
  have hlenient' : c.settings.resolverOptions.failOnUnresolvable = false := hlenient
  have hfallback : (splitDefault (Path.ofKeys (name :: names)).rooted).2 = none := by
    rw [splitDefault_rooted hnames]
  have hfind := (find?_rooted hnames ⟨"running config", snapshot c.running tree⟩).trans
    (hnone tree htree)
  rw [snapshotText_wrap_of_find?_eq_none hlenient' (inert_rooted hnames) hfallback hfind] at hout
  rcases hafter with hafter | ⟨hlast, -⟩
  · rw [hafter, hout]
  · exact absurd hlast hmore

/-- **A pending placeholder is filled** once the snapshot holds a value at its path. -/
theorem step_filled {v : Value} (hv : ∀ tree, c.incoming tools = some tree →
      (snapshot c.running tree).get? (Path.ofKeys (name :: names)) = some v)
    (hpresent : v.isNull = false) (hplain : ∀ text ∈ v.texts, Plain text) :
    (c.step tools).result.running.get? (Path.ofKeys q) = some v := by
  obtain ⟨tree, out, htree, hout, hafter⟩ :=
    step_placeholder hc htools hkeys hnext hok hspares hnames hw
  have hkeys' : c.settings.resolverOptions.keyResolution = false := hkeys
  have hfind : (Layer.mk "running config" (snapshot c.running tree)).find?
      (pathText (Path.ofKeys (name :: names)).rooted) = some v := by
    rw [find?_rooted hnames, hv tree htree, Value.nonNull?, Option.filter_some, hpresent]
    rfl
  rw [snapshotText_wrap hkeys' (inert_rooted hnames) hfind
    fun text htext => contains_of_plain (hplain text htext)] at hout
  rcases hafter with hafter | ⟨-, hafter⟩
  · rw [hafter, hout]
  · rw [hafter]
    exact Mapping.get?_clearUnresolved_of_plain hout hplain

end Step

/-- Behind the last page nothing happens to a node in which no placeholder opens. -/
theorem step_idle {tools : Tools} {c : Compilation} (hnext : c.nextPage? = none)
    (hstage : c.stage = .render ∨ c.stage = .done) {p : Path} {w : Value}
    (hw : c.running.get? p = some w) (hplain : ∀ text ∈ w.texts, Plain text) :
    (c.step tools).result.running.get? p = some w := by
  rcases hstage with hstage | hstage
  · have hpages : c.pages = [] := by simpa [nextPage?, hstage] using hnext
    rw [step_render_nil hstage hpages, Edited.result_done, finish]
    dsimp only
    split
    · exact Mapping.get?_clearUnresolved_of_plain hw hplain
    · exact hw
  · rw [step_done hstage]
    exact hw

/-! ## The run -/

section Run

variable (tools : Nat → Tools) (c : Compilation)

/-- The tree that the page with an index brings. -/
def treeOf (k : Nat) : Option Mapping :=
  (c.after tools (k + 2)).incoming (tools (k + 2))

/-- The snapshot that the page with an index is resolved against. -/
def snapshotOf (k : Nat) : Option Mapping :=
  (c.treeOf tools k).map (snapshot (c.after tools (k + 2)).running)

/-- A placeholder at `q` that names the path `p` and nothing else, from page `i` on, where
page `j` is the first one behind that gives `p` a value `v`. -/
structure ForwardReference (q p : List String) (i j : Nat) (v : Value) : Prop where
  later : i < j
  nameable : ∀ name ∈ p, Nameable name
  pending : (c.runningAfter tools i).get? (Path.ofKeys q) =
    some (.str (wrap (Path.ofKeys p).rooted))
  /-- Until then the target is absent or null. -/
  undefined : ∀ k, i < k → k < j → ∀ data, c.snapshotOf tools k = some data →
    Value.nonNull? (data.get? (Path.ofKeys p)) = none
  defined : ∃ data, c.snapshotOf tools j = some data ∧ data.get? (Path.ofKeys p) = some v
  present : v.isNull = false
  plain : ∀ text ∈ v.texts, Plain text
  /-- No later page writes at the placeholder or cuts it off. -/
  spared : ∀ k, i < k → ∀ tree, c.treeOf tools k = some tree →
    (Value.map tree).Spares (Path.ofKeys q)

end Run

section Course

variable {input : CompileInput} {c : Compilation} {tools : Nat → Tools}
  (hstart : start input = .ok c) (hinput : input.WellFormed)
  (htools : ∀ n, (tools n).format.Tidy) (hkeys : c.settings.keyResolution = false)
  (hlenient : c.settings.failOnUnresolvable = false)
  (hpages : ∀ n page, (c.after tools n).nextPage? = some page →
    ((c.after tools n).step (tools n)).failure = none)
  {q : List String} {name : String} {names : List String} {i j : Nat} {v : Value}
  (href : c.ForwardReference tools q (name :: names) i j v)

include hstart hinput href in
/-- The page that defines the target is one of the pages. -/
theorem ForwardReference.lt_length :
    j < (splitPages c.source c.settings.pageSeparator).length := by
  obtain ⟨data, hdata, -⟩ := href.defined
  obtain ⟨tree, htree, -⟩ := Option.map_eq_some_iff.mp hdata
  obtain ⟨page, hpage, -⟩ := Option.bind_eq_some_iff.mp htree
  rw [nextPage?_after tools hstart hinput.distinct] at hpage
  exact (List.getElem?_eq_some_iff.mp hpage).1

include hstart hinput htools hkeys hlenient hpages href

/-- **The placeholder waits** for the page that defines its target. -/
theorem ForwardReference.waits {k : Nat} (hik : i ≤ k) (hkj : k < j) :
    (c.runningAfter tools k).get? (Path.ofKeys q) =
      some (.str (wrap (Path.ofKeys (name :: names)).rooted)) := by
  have hlast := href.lt_length hstart hinput
  induction k, hik using Nat.le_induction with
  | base => exact href.pending
  | succ k hik ih =>
      have hwf := wellFormed_after hstart hinput htools hpages (k + 3)
      have hpage := nextPage?_after tools hstart hinput.distinct (k + 1)
      rw [List.getElem?_eq_getElem (by omega)] at hpage
      -- page `j` is still to come, so this is not the last page and nothing is cleared
      have hmore : (c.after tools (k + 3)).pages.tail ≠ [] := by
        rw [(after_pages tools hstart hinput.distinct (k + 1)).1, List.tail_drop]
        intro hnil
        have hlength := List.drop_eq_nil_iff.mp hnil
        omega
      refine step_pending hwf (htools _) (by rw [settings_after, hkeys]) hpage
        (hpages _ _ hpage) (href.spared (k + 1) (by omega)) href.nameable (ih (by omega))
        (by rw [settings_after, hlenient]) (fun tree htree => ?_) hmore
      exact href.undefined (k + 1) (by omega) hkj _ (congrArg (Option.map _) htree)

/-- **The value is there** from the page on that defines it. -/
theorem ForwardReference.arrives {k : Nat} (hjk : j ≤ k) :
    (c.runningAfter tools k).get? (Path.ofKeys q) = some v := by
  have hlater := href.later
  have hwf := wellFormed_after hstart hinput htools hpages
  have hkeys' : ∀ n, (c.after tools n).settings.keyResolution = false := by
    intro n
    rw [settings_after, hkeys]
  induction k, hjk using Nat.le_induction with
  | base =>
      obtain ⟨before, rfl⟩ : ∃ before, j = before + 1 := ⟨j - 1, by omega⟩
      have hwaits := href.waits hstart hinput htools hkeys hlenient hpages
        (k := before) (by omega) (by omega)
      obtain ⟨data, hdata, hv⟩ := href.defined
      obtain ⟨tree, htree, rfl⟩ := Option.map_eq_some_iff.mp hdata
      have hpage := nextPage?_after tools hstart hinput.distinct (before + 1)
      rw [List.getElem?_eq_getElem (href.lt_length hstart hinput)] at hpage
      refine step_filled (hwf _) (htools _) (hkeys' _) hpage (hpages _ _ hpage)
        (href.spared _ hlater) href.nameable hwaits (fun tree' htree' => ?_) href.present
        href.plain
      obtain rfl : tree = tree' := Option.some.inj (htree.symm.trans htree')
      exact hv
  | succ k hjk ih =>
      cases hpage : (c.after tools (k + 3)).nextPage? with
      | some page =>
          have hspared := href.spared (k + 1) (by omega)
          exact step_settled (hwf _) (htools _) (hkeys' _) hpage (hpages _ _ hpage) hspared ih
            href.plain
      | none =>
          have hstage : (c.after tools (k + 3)).stage = .render ∨
              (c.after tools (k + 3)).stage = .done :=
            (after_pages tools hstart hinput.distinct (k + 1)).2.imp And.left And.left
          exact step_idle hpage hstage ih href.plain

end Course

end Compilation

open Compilation in
/-- **References to later pages resolve.**  A placeholder that names a path without a value
stays where it is until a page defines the path, and is the value of the path after that
page and every later one. -/
theorem forward_references_resolve (input : CompileInput) (c : Compilation)
    (hstart : start input = .ok c) (hinput : input.WellFormed) (tools : Nat → Tools)
    (htools : ∀ n, (tools n).format.Tidy) (hkeys : c.settings.keyResolution = false)
    (hlenient : c.settings.failOnUnresolvable = false)
    (hpages : ∀ n page, (c.after tools n).nextPage? = some page →
      ((c.after tools n).step (tools n)).failure = none)
    {q p : List String} {i j : Nat} {v : Value} (href : c.ForwardReference tools q p i j v) :
    (∀ k, i ≤ k → k < j → (c.runningAfter tools k).get? (Path.ofKeys q) =
      some (.str (wrap (Path.ofKeys p).rooted))) ∧
    ∀ k, j ≤ k → (c.runningAfter tools k).get? (Path.ofKeys q) = some v := by
  obtain ⟨data, hdata, hv⟩ := href.defined
  obtain ⟨name, names, rfl⟩ := Mapping.ofKeys_ne_nil hv
  exact ⟨fun _ => href.waits hstart hinput htools hkeys hlenient hpages,
    fun _ => href.arrives hstart hinput htools hkeys hlenient hpages⟩

/-! ## Four pages -/

/-- Four pages, of which the first one refers to the third. -/
def fourPageInput : CompileInput :=
  { sources := ["ref: ${/late/value}\n---\nother: 1\n---\nlate:\n  value: 5\n---\nmore: text"]
    overrides := .empty
    prior := none
    settings := .standard }

/-- The compilation of four pages, before its first step. -/
def fourPageStart : Compilation :=
  { stage := .seed
    source := "ref: ${/late/value}\n---\nother: 1\n---\nlate:\n  value: 5\n---\nmore: text"
    overrides := .empty
    prior := none
    settings := .standard
    pages := []
    running := [] }

theorem wellFormed_fourPageInput : fourPageInput.WellFormed :=
  ⟨Value.wellFormed_map.mpr ⟨List.nodup_nil, nofun⟩, nofun⟩

/-- There is no page behind the fourth. -/
theorem lt_of_nextPage?_fourPageStart {k : Nat} {page : Page}
    (h : (fourPageStart.after (fun _ => untemplated) (k + 2)).nextPage? = some page) : k < 4 := by
  have hcount : (splitPages fourPageStart.source
      fourPageStart.settings.pageSeparator).length = 4 := by decide +kernel
  have hstart : Compilation.start fourPageInput = .ok fourPageStart := rfl
  rw [Compilation.nextPage?_after _ hstart wellFormed_fourPageInput.distinct] at h
  exact hcount ▸ (List.getElem?_eq_some_iff.mp h).1

/-- Every page succeeds. -/
theorem failure_fourPageStart (n : Nat) (page : Page)
    (h : (fourPageStart.after (fun _ => untemplated) n).nextPage? = some page) :
    ((fourPageStart.after (fun _ => untemplated) n).step untemplated).failure = none := by
  have hok : ∀ k < 4, ((fourPageStart.after (fun _ => untemplated) (k + 2)).step
      untemplated).failure.isNone = true := by decide +kernel
  match n with
  | 0 => cases h
  | 1 => cases h
  | k + 2 => exact Option.isNone_iff_eq_none.mp (hok k (lt_of_nextPage?_fourPageStart h))

/-- The number of an integer. -/
def Value.asInt? : Value → Option Int64
  | .int i => some i
  | _ => none

theorem Value.eq_int_of_asInt? {v : Option Value} {i : Int64}
    (h : v.bind asInt? = some i) : v = some (.int i) := by
  obtain ⟨w, rfl, hw⟩ := Option.bind_eq_some_iff.mp h
  cases w with
  | int i' => exact congrArg (fun i => some (Value.int i)) (Option.some.inj hw)
  | _ => cases hw

/-- The reference of the first page is pending until the third one. -/
theorem forwardReference_fourPageStart :
    fourPageStart.ForwardReference (fun _ => untemplated) ["ref"] ["late", "value"] 0 2
      (.int 5) where
  later := by decide
  nameable := by decide
  pending := Value.eq_str_of_asString? (by decide +kernel)
  undefined := by
    have hnone : ((fourPageStart.snapshotOf (fun _ => untemplated) 1).bind fun data =>
        Value.nonNull? (data.get? (Path.ofKeys ["late", "value"]))).isNone = true := by
      decide +kernel
    intro k hk hk' data hdata
    obtain rfl : k = 1 := by omega
    rw [hdata] at hnone
    exact Option.isNone_iff_eq_none.mp hnone
  defined := by
    have hfive : ((fourPageStart.snapshotOf (fun _ => untemplated) 2).bind fun data =>
        (data.get? (Path.ofKeys ["late", "value"])).bind Value.asInt?) = some 5 := by
      decide +kernel
    obtain ⟨data, hdata, hvalue⟩ := Option.bind_eq_some_iff.mp hfive
    exact ⟨data, hdata, Value.eq_int_of_asInt? hvalue⟩
  present := rfl
  plain := nofun
  spared := by
    have hfree : ∀ k < 4, 0 < k →
        ((fourPageStart.treeOf (fun _ => untemplated) k).all fun tree =>
          (tree.lookup "ref").isNone) = true := by decide +kernel
    intro k hk tree htree
    obtain ⟨page, hpage, -⟩ := Option.bind_eq_some_iff.mp htree
    have hnone := hfree k (lt_of_nextPage?_fourPageStart hpage) hk
    rw [htree] at hnone
    exact Value.spares_of_lookup_eq_none [] (Option.isNone_iff_eq_none.mp hnone)

/-- The number five that the third page defines takes the place of the reference to it. -/
theorem fourPageStart_reference_resolves :
    Compilation.start fourPageInput = .ok fourPageStart ∧ fourPageInput.WellFormed ∧
      fourPageStart.ForwardReference (fun _ => untemplated) ["ref"] ["late", "value"] 0 2
        (.int 5) ∧
      (fourPageStart.runningAfter (fun _ => untemplated) 1).get? (Path.ofKeys ["ref"]) =
        some (.str "${/late/value}") ∧
      (fourPageStart.runningAfter (fun _ => untemplated) 3).get? (Path.ofKeys ["ref"]) =
        some (.int 5) := by
  have hresolves := forward_references_resolve fourPageInput fourPageStart rfl
    wellFormed_fourPageInput (fun _ => untemplated) (fun _ => Format.yaml_tidy) rfl rfl
    failure_fourPageStart forwardReference_fourPageStart
  exact ⟨rfl, wellFormed_fourPageInput, forwardReference_fourPageStart,
    hresolves.1 1 (by decide) (by decide), hresolves.2 3 (by decide)⟩

end LayeredConfig
