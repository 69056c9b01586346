import LayeredConfig.Proofs.Page.Step
import LayeredConfig.Proofs.Resolve.Agreement

/-!
# Strict and lenient compilations

A setting makes unknown placeholders an error.  A strict compilation that succeeds gives
what the lenient one gives, although the running configuration of each page is resolved
before the next page is templated against it: up to the first unknown placeholder the two
compilations are the same, step by step, and that placeholder ends the strict one.

`Resolver.resolveAll_strict_agree` says so for one resolution.  It is carried from there
to what a page does (`absorb_strict_agree`), to a step (`step_strict_agree`) and to a
whole run (`runToEnd_strict_agree`).  The main statement is `strict_and_lenient_agree`,
for resolvers with any layers and for compilations.
-/

namespace LayeredConfig

/-- The input with unknown placeholders an error or not. -/
def CompileInput.setStrict (input : CompileInput) (strict : Bool) : CompileInput :=
  { input with settings := { input.settings with failOnUnresolvable := strict } }

/-- The error is about an unknown placeholder. -/
def Error.IsMissing (e : Error) : Prop :=
  ∃ placeholder, e = .unresolved (.missing placeholder)

namespace Compilation

/-- The compilation with unknown placeholders an error or not. -/
def setStrict (c : Compilation) (strict : Bool) : Compilation :=
  { c with settings := { c.settings with failOnUnresolvable := strict } }

/-- A compilation that is strict or not already stays as it is. -/
theorem setStrict_of_settings {c : Compilation} {strict : Bool}
    (h : c.settings.failOnUnresolvable = strict) : c.setStrict strict = c := by
  subst h
  rfl

variable (tools : Tools)

/-- A page absorbed strictly stops at an unknown placeholder, or does what it does
leniently. -/
theorem absorb_strict_agree (settings : Settings) (running tree : Mapping) :
    Edited.AgreeUpTo Error.IsMissing
      (absorb { settings with failOnUnresolvable := true } running tree)
      (absorb { settings with failOnUnresolvable := false } running tree) := by
  unfold absorb
  simp only
  split
  · exact Edited.AgreeUpTo.refl _
  · split
    · exact Edited.AgreeUpTo.refl _
    · rcases Resolver.resolveAll_strict_agree
          (Resolver.single settings.resolverOptions "running config"
            (Mapping.merge .append tree running).result.anchor.result) reentryLimit
          (Mapping.merge .append tree running).result.anchor.result with
        ⟨e, ⟨placeholder, rfl⟩, hfail⟩ | hsame
      · refine Or.inl ⟨_, ⟨placeholder, rfl⟩, ?_⟩
        exact congrArg (Option.map Error.unresolved) hfail
      · refine Or.inr ?_
        exact congrArg (fun resolved : Edited Unresolved Mapping =>
          (⟨resolved.result, resolved.failure.map .unresolved⟩ : Edited Error Mapping)) hsame

/-- Strictness does not touch the overrides. -/
theorem withOverrides_setStrict (c : Compilation) (strict : Bool) (page : Page)
    (tree : Mapping) :
    (c.setStrict strict).withOverrides page tree =
      ((c.withOverrides page tree).1.setStrict strict, (c.withOverrides page tree).2) := by
  rw [withOverrides_of_same (c := c) (d := c.setStrict strict) rfl rfl, c.withOverrides_fst]
  rfl

/-- A page rendered strictly stops at an unknown placeholder, or does what it does
leniently. -/
theorem renderPage_strict_agree (c : Compilation) (page : Page) :
    Edited.AgreeUpTo Error.IsMissing (renderPage tools (c.setStrict true) page)
      ((renderPage tools (c.setStrict false) page).map (setStrict · true)) := by
  simp only [renderPage, withOverrides_setStrict]
  have hrunning : ∀ strict, (c.setStrict strict).running = c.running := fun _ => rfl
  rw [hrunning, hrunning]
  cases pageTree tools page c.running with
  | error e => exact Edited.AgreeUpTo.refl _
  | ok tree =>
      simp only
      rcases c.withOverrides page tree with ⟨c', e | merged⟩
      · exact Edited.AgreeUpTo.refl _
      · exact (absorb_strict_agree c'.settings c'.running merged).map fun running =>
          { c'.setStrict true with running }

/-- What follows a page does not depend on strictness. -/
theorem afterPage_setStrict (c : Compilation) (strict : Bool) :
    afterPage (c.setStrict strict) = (afterPage c).map (setStrict · strict) := by
  unfold afterPage
  by_cases hempty : c.pages.isEmpty = true
  · rw [if_pos hempty]
    exact if_pos hempty
  · rw [if_neg hempty]
    exact if_neg hempty

/-- A step that renders no page does not depend on strictness. -/
theorem step_setStrict (c : Compilation) (h : c.nextPage? = none) (strict : Bool) :
    (c.setStrict strict).step tools = (c.step tools).map (setStrict · strict) := by
  cases hstage : c.stage with
  | seed =>
      cases hprior : c.prior with
      | none => simp [step, setStrict, hstage, hprior]
      | some prior =>
          cases hseed : (Mapping.merge .append prior c.running).failure <;>
            simp [step, setStrict, hstage, hprior, hseed, Edited.stop, Edited.map, Edited.done]
  | split =>
      by_cases hpages : splitPages c.source c.settings.pageSeparator = []
      · rw [step_split_nil hstage hpages,
          step_split_nil (c := c.setStrict strict) hstage hpages]
        rfl
      · rw [step_split_cons hstage hpages,
          step_split_cons (c := c.setStrict strict) hstage hpages]
        rfl
  | render =>
      have hpages : c.pages = [] := by simpa [nextPage?, hstage] using h
      rw [step_render_nil hstage hpages, step_render_nil (c := c.setStrict strict) hstage hpages]
      rfl
  | done => rw [step_done hstage, step_done (c := c.setStrict strict) hstage, Edited.done_map]

/-- **A strict step** stops at an unknown placeholder, or does what the lenient one does. -/
theorem step_strict_agree (c : Compilation) :
    Edited.AgreeUpTo Error.IsMissing ((c.setStrict true).step tools)
      (((c.setStrict false).step tools).map (setStrict · true)) := by
  cases hnext : c.nextPage? with
  | none =>
      rw [step_setStrict tools c hnext, step_setStrict tools c hnext]
      exact Edited.AgreeUpTo.refl _
  | some page =>
      have hrender := renderPage_strict_agree tools { c with pages := c.pages.tail } page
      rw [step_of_nextPage? (c := c.setStrict true) hnext,
        step_of_nextPage? (c := c.setStrict false) hnext,
        Edited.map_andThen _ _ fun c => (afterPage_setStrict c true).symm]
      exact hrender.andThen fun c => Edited.AgreeUpTo.refl _

/-- A step does not change the settings. -/
theorem step_settings (c : Compilation) : (c.step tools).result.settings = c.settings := by
  cases hstage : c.stage with
  | seed =>
      cases hprior : c.prior with
      | none => simp [step, hstage, hprior]
      | some prior =>
          cases hseed : (Mapping.merge .append prior c.running).failure <;>
            simp [step, hstage, hprior, hseed, Edited.stop]
  | split =>
      by_cases hpages : splitPages c.source c.settings.pageSeparator = []
      · rw [step_split_nil hstage hpages]
        rfl
      · rw [step_split_cons hstage hpages]
        rfl
  | render =>
      cases hpages : c.pages with
      | nil =>
          rw [step_render_nil hstage hpages]
          rfl
      | cons page rest =>
          obtain ⟨overrides, running, hresult⟩ :=
            renderPage_result tools { c with pages := rest } page
          rw [step_render_cons hstage hpages]
          cases hfail : (renderPage tools { c with pages := rest } page).failure with
          | some e => rw [result_andThen_afterPage hfail, hresult]
          | none =>
              rw [Edited.eq_done hfail, hresult, Edited.done_andThen, afterPage]
              split <;> rfl
  | done => rw [step_done hstage, Edited.result_done]

/-- **A strict run** stops at an unknown placeholder, or does what the lenient one does. -/
theorem runToEnd_strict_agree (bound : Nat) (c : Compilation) :
    Edited.AgreeUpTo Error.IsMissing (runToEnd tools bound (c.setStrict true))
      ((runToEnd tools bound (c.setStrict false)).map (setStrict · true)) := by
  induction bound generalizing c with
  | zero => exact Edited.AgreeUpTo.refl _
  | succ bound ih =>
      have hlenient : ((c.setStrict false).step tools).result.setStrict false =
          ((c.setStrict false).step tools).result := setStrict_of_settings
            (congrArg Settings.failOnUnresolvable (step_settings tools (c.setStrict false)))
      rcases step_strict_agree tools c with ⟨e, he, hfail⟩ | hsame
      · exact Or.inl ⟨e, he, by rw [runToEnd, Edited.andThen, hfail]⟩
      · rw [runToEnd, runToEnd, hsame]
        generalize (c.setStrict false).step tools = stepped at hlenient
        obtain ⟨d, failure⟩ := stepped
        cases failure with
        | some e => exact Edited.AgreeUpTo.refl _
        | none =>
            have hd : d.setStrict false = d := hlenient
            change Edited.AgreeUpTo Error.IsMissing
              (if d.stage = .done then .done (d.setStrict true)
                else runToEnd tools bound (d.setStrict true))
              ((if d.stage = .done then .done d else runToEnd tools bound d).map
                (setStrict · true))
            by_cases hdone : d.stage = .done
            · rw [if_pos hdone, if_pos hdone]
              exact Edited.AgreeUpTo.refl _
            · rw [if_neg hdone, if_neg hdone]
              exact hd ▸ ih d

/-- A compilation starts the same whether it is strict or not. -/
theorem start_setStrict (input : CompileInput) (strict : Bool) :
    start (input.setStrict strict) = (start input).map (setStrict · strict) := by
  simp only [start, CompileInput.setStrict]
  split <;> rfl

end Compilation

/-- **A strict compilation** fails at an unknown placeholder, or gives what the lenient
one gives. -/
theorem compile_strict_agree (tools : Tools) (input : CompileInput) :
    AgreeUpTo Error.IsMissing (compile tools (input.setStrict true))
      (compile tools (input.setStrict false)) := by
  rw [compile, compile, Compilation.start_setStrict, Compilation.start_setStrict]
  cases Compilation.start input with
  | error e => exact AgreeUpTo.refl _
  | ok c =>
      have hrunning : ∀ run : Edited Error Compilation,
          ((run.map (Compilation.setStrict · true)).toExcept >>= fun finished =>
            .ok finished.running) = run.toExcept >>= fun finished => .ok finished.running := by
        rintro ⟨result, e | _⟩ <;> rfl
      have hagree := (Compilation.runToEnd_strict_agree tools c.stepBound c).toExcept.bind
        fun finished => AgreeUpTo.refl (Except.ok finished.running)
      rw [hrunning] at hagree
      exact hagree

/-- What strictness means to a resolver, on one tree and one text.  A run returns an
outcome if it ends in it at some depth; where the running resolver is not cut off, that is
the outcome it gives. -/
structure Resolver.StrictAgrees (r : Resolver) (tree : Mapping) (text : String) : Prop where
  /-- A tree that is resolved strictly is resolved to the same tree leniently. -/
  keepsTree : ∀ out, (r.setStrict true).ReturnsTree tree out → out.failure = none →
    (r.setStrict false).ReturnsTree tree out
  /-- A text that is resolved strictly is resolved to the same value leniently. -/
  keepsText : ∀ v, (r.setStrict true).ReturnsText text (.ok v) →
    (r.setStrict false).ReturnsText text (.ok v)
  /-- Strict runs fail at unknown placeholders only. -/
  failsTree : ∀ out e, (r.setStrict true).ReturnsTree tree out → out.failure = some e →
    IsMissing e
  /-- So do strict runs over a text. -/
  failsText : ∀ e, (r.setStrict true).ReturnsText text (.error e) → IsMissing e
  /-- Lenient runs do not fail. -/
  resolvesTree : ∀ out, (r.setStrict false).ReturnsTree tree out → out.failure = none
  /-- Nor do lenient runs over a text. -/
  resolvesText : ∀ out, (r.setStrict false).ReturnsText text out → ∃ v, out = .ok v
  /-- What the running resolver makes of the tree is what the run returns, and nothing
  else is. -/
  runsTree : ∀ strict, ((r.setStrict strict).resolveAll tree).failure ≠ some .endless →
    ∀ out, (r.setStrict strict).ReturnsTree tree out ↔ out = (r.setStrict strict).resolveAll tree
  /-- So it is for the text. -/
  runsText : ∀ strict, (r.setStrict strict).resolveScalar text ≠ .error .endless →
    ∀ out, (r.setStrict strict).ReturnsText text out ↔
      out = (r.setStrict strict).resolveScalar text

/-- **Strict and lenient runs agree.**  For any layers, what a strict run returns is what
the lenient one returns, unless the strict one met an unknown placeholder, and lenient runs
return no errors.  A strict compilation that succeeds gives the tree of the lenient one; one
that fails met an unknown placeholder or fails like the lenient one. -/
theorem strict_and_lenient_agree (r : Resolver) (tree : Mapping) (text : String)
    (tools : Tools) (input : CompileInput) :
    r.StrictAgrees tree text ∧
      (∀ compiled, compile tools (input.setStrict true) = .ok compiled →
        compile tools (input.setStrict false) = .ok compiled) ∧
      ∀ e, compile tools (input.setStrict true) = .error e →
        e.IsMissing ∨ compile tools (input.setStrict false) = .error e := by
  have hcompile := compile_strict_agree tools input
  refine ⟨⟨?_, ?_, ?_, ?_, ?_, ?_, ?_, ?_⟩, ?_, ?_⟩
  · intro out hout hdone
    rcases hout.of_strict with ⟨e, -, hfail⟩ | hlenient
    · rw [hdone] at hfail
      contradiction
    · exact hlenient
  · intro v hv
    rcases hv.of_strict with ⟨e, -, hfail⟩ | hlenient
    · contradiction
    · exact hlenient
  · intro out e hout he
    rcases hout.of_strict with ⟨e', hmissing, hfail⟩ | hlenient
    · exact Option.some.inj (hfail.symm.trans he) ▸ hmissing
    · rw [hlenient.failure_eq_none rfl] at he
      contradiction
  · intro e he
    rcases he.of_strict with ⟨e', hmissing, hfail⟩ | hlenient
    · exact Except.error.inj hfail ▸ hmissing
    · obtain ⟨v, hv⟩ := hlenient.eq_ok rfl
      contradiction
  · exact fun out hout => hout.failure_eq_none rfl
  · exact fun out hout => hout.eq_ok rfl
  · intro strict hends out
    have hreturns := Resolver.returnsTree_resolveAll hends
    exact ⟨fun hout => hout.unique hreturns, fun heq => heq ▸ hreturns⟩
  · intro strict hends out
    have hreturns := Resolver.returnsText_resolveScalar hends
    exact ⟨fun hout => hout.unique hreturns, fun heq => heq ▸ hreturns⟩
  · intro compiled hstrict
    rcases hcompile with ⟨e, -, hfail⟩ | hsame
    · rw [hfail] at hstrict
      contradiction
    · exact hsame ▸ hstrict
  · intro e hstrict
    rcases hcompile with ⟨e', hmissing, hfail⟩ | hsame
    · exact Or.inl (Except.error.inj (hfail.symm.trans hstrict) ▸ hmissing)
    · exact Or.inr (hsame ▸ hstrict)

/-- Two layers, of which the second one knows the reference. -/
def referredResolver : Resolver :=
  ⟨[⟨"first", [("a", .null)]⟩, ⟨"second", [("a", .int 1)]⟩], ⟨true, false, false⟩⟩

/-- Two pages, the second of which refers to the first. -/
def backwardInput : CompileInput :=
  { sources := ["b: 1\n---\na: ${/b}"]
    overrides := .empty
    prior := none
    settings := .standard }

/-- A reference back is resolved either way.  One that no layer knows fails the strict
run. -/
theorem backward_reference_agrees :
    (referredResolver.setStrict true).ReturnsTree [("x", .str "${/a}")]
        (.done [("x", .int 1)]) ∧
      (referredResolver.setStrict false).ReturnsTree [("x", .str "${/a}")]
        (.done [("x", .int 1)]) ∧
      (referredResolver.setStrict true).ReturnsText "${/d}" (.error (.missing "${/d}")) ∧
      ∃ compiled,
        compile ⟨fun text _ => some text, .yaml⟩ (backwardInput.setStrict true) = .ok compiled ∧
        compile ⟨fun text _ => some text, .yaml⟩ (backwardInput.setStrict false) =
          .ok compiled ∧
        renderExport compiled = "\x7b\n    \"b\": 1,\n    \"a\": 1\n\x7d" := by
  have hagree := strict_and_lenient_agree referredResolver [("x", .str "${/a}")] "${/d}"
    ⟨fun text _ => some text, .yaml⟩ backwardInput
  have hstrict : (referredResolver.setStrict true).ReturnsTree [("x", .str "${/a}")]
      (.done [("x", .int 1)]) := ⟨nofun, 3, rfl⟩
  have hexport : (compile ⟨fun text _ => some text, .yaml⟩
      (backwardInput.setStrict true)).toOption.map renderExport =
        some "\x7b\n    \"b\": 1,\n    \"a\": 1\n\x7d" := by decide +kernel
  refine ⟨hstrict, hagree.1.keepsTree _ hstrict rfl, ⟨by simp, 3, rfl⟩, ?_⟩
  cases hcompile : compile ⟨fun text _ => some text, .yaml⟩ (backwardInput.setStrict true) with
  | error e =>
      rw [hcompile] at hexport
      contradiction
  | ok compiled =>
      rw [hcompile] at hexport
      exact ⟨compiled, rfl, hagree.2.1 compiled hcompile, Option.some.inj hexport⟩

end LayeredConfig
