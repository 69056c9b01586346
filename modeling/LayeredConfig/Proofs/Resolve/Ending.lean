import LayeredConfig.Proofs.Resolve.Level
import Mathlib.Data.List.Nodup

/-!
# Resolution against one layer ends

Data may refer to itself in every way: a text to itself, a mapping to a value
inside it, the keys of a mapping to that mapping, a nested placeholder to the text
that it stands in.  Against a single layer resolution ends all the same.

A call is made for a text below a trail.  Expansion makes the trail longer, and
the trail never holds more than `trailLimit` paths.  Collapsing leaves the trail as
it is, but it calls for wrapped keys only, and nothing is nested in a wrapped key.
So every call is *lighter* than the one that makes it, where `callWeight` counts
the free places of the trail twice and the nesting of the text once.

`Resolver.auditedText` makes that visible.  It is resolution without any bound on
its depth, defined by recursion on the weight, and it gives up as soon as a nested
call is not lighter or is made below a trail that is too long or holds a path twice.
The main statement, `single_layer_resolution_ends`, says that it never gives up and
that it is the resolution that runs.
-/

namespace LayeredConfig

open Placeholder

/-- A trail that is not too long and holds no path twice. -/
def Trail.Orderly (trail : Trail) : Prop :=
  trail.length ≤ trailLimit ∧ trail.Nodup

instance (trail : Trail) : Decidable trail.Orderly :=
  inferInstanceAs (Decidable (_ ∧ _))

/-- The empty trail is orderly. -/
theorem Trail.orderly_nil : Trail.Orderly [] :=
  ⟨Nat.zero_le _, List.nodup_nil⟩

/-- An admitted path leaves an orderly trail orderly. -/
theorem Trail.Orderly.append {trail : Trail} {path : String} (h : trail.Orderly)
    (hadmits : trail.admits path = true) : Trail.Orderly (trail ++ [path]) := by
  obtain ⟨hroom, hnew⟩ := Trail.admits_iff.mp hadmits
  refine ⟨?_, ?_⟩
  · rw [List.length_append, List.length_singleton]
    omega
  · exact List.nodup_append_comm.mp (List.nodup_cons.mpr ⟨hnew, h.2⟩)

/-- The weight of a call for a text below a trail. -/
def callWeight (trail : Trail) (text : String) : Nat :=
  2 * (trailLimit - trail.length) + if nestedKeys text = [] then 1 else 2

/-- The weight that no call exceeds. -/
def weightBound : Nat := 2 * (trailLimit + 1)

/-- No call is heavier than the bound. -/
theorem callWeight_le (trail : Trail) (text : String) : callWeight trail text ≤ weightBound := by
  unfold callWeight weightBound
  split <;> omega

/-- Every call has a weight. -/
theorem callWeight_pos (trail : Trail) (text : String) : 0 < callWeight trail text := by
  unfold callWeight
  split <;> omega

/-- A wrapped key is lighter than a text with something nested in it. -/
theorem callWeight_wrap_lt {trail : Trail} {text key : String} (hkey : Inert key.toList)
    (htext : nestedKeys text ≠ []) : callWeight trail (wrap key) < callWeight trail text := by
  simp [callWeight, nestedKeys_wrap hkey, htext]

/-- A text below a longer trail is lighter than any text below the trail. -/
theorem callWeight_append_lt {trail : Trail} {path : String}
    (hadmits : trail.admits path = true) (text text' : String) :
    callWeight (trail ++ [path]) text' < callWeight trail text := by
  have hroom := (Trail.admits_iff.mp hadmits).1
  unfold callWeight
  rw [List.length_append, List.length_singleton]
  split <;> split <;> omega

namespace Resolver

/-- Resolution without a bound on its depth, which gives up as soon as a nested call
is not lighter or its trail is not orderly. -/
def auditedText (r : Resolver) : TextResolution := fun trail pass text =>
  r.resolveLevel Trail.admits
    (fun trail' pass' text' =>
      if _h : trail'.Orderly ∧ callWeight trail' text' < callWeight trail text then
        auditedText r trail' pass' text'
      else .error .endless)
    trail pass text
termination_by trail _ text => callWeight trail text

/-- **One level of a single-layer resolution.**  Two deeper resolutions that agree on
the lighter calls below orderly trails lead to the same level. -/
theorem resolveLevel_congr_of_lighter {r : Resolver} {pass₀ : Pass} (hr : r.passes = [pass₀])
    {f g : TextResolution} {trail : Trail} (htrail : trail.Orderly) {pass : Pass}
    {text : String}
    (h : ∀ trail' pass' text', trail'.Orderly →
      callWeight trail' text' < callWeight trail text →
        f trail' pass' text' = g trail' pass' text') :
    r.resolveLevel Trail.admits f trail pass text =
      r.resolveLevel Trail.admits g trail pass text := by
  refine resolveLevel_congr (fun hnested key hkey => ?_) (fun path hadmits => ?_)
  · rw [hr, throughPasses_singleton, throughPasses_singleton]
    exact h trail pass₀ (wrap key) htrail (callWeight_wrap_lt hkey hnested)
  · funext pass' text'
    exact h _ pass' text' (htrail.append hadmits) (callWeight_append_lt hadmits text text')

/-- An audited call is a level above audited calls. -/
theorem auditedText_eq {r : Resolver} {pass₀ : Pass} (hr : r.passes = [pass₀])
    {trail : Trail} (htrail : trail.Orderly) (pass : Pass) (text : String) :
    r.auditedText trail pass text =
      r.resolveLevel Trail.admits r.auditedText trail pass text := by
  rw [auditedText]
  refine resolveLevel_congr_of_lighter hr htrail fun trail' pass' text' htrail' hlighter => ?_
  rw [dif_pos ⟨htrail', hlighter⟩]

/-- **The audit passes.**  A depth of at least the weight of a call gives the audited
result, by induction on the depth. -/
theorem resolveText_eq_auditedText {r : Resolver} {pass₀ : Pass} (hr : r.passes = [pass₀])
    {depth : Nat} {trail : Trail} (htrail : trail.Orderly) {pass : Pass} {text : String}
    (hdepth : callWeight trail text ≤ depth) :
    resolveText Trail.admits r depth trail pass text = r.auditedText trail pass text := by
  induction depth generalizing trail pass text with
  | zero =>
      have hpos := callWeight_pos trail text
      omega
  | succ depth ih =>
      rw [auditedText_eq hr htrail, resolveText]
      refine resolveLevel_congr_of_lighter hr htrail fun trail' pass' text' htrail' hlighter => ?_
      exact ih htrail' (by omega)

/-- The one error that resolution reports: a placeholder is unknown, and that is an
error. -/
def Misses (r : Resolver) (e : Unresolved) : Prop :=
  r.options.failOnUnresolvable = true ∧ ∃ placeholder, e = .missing placeholder

/-- **The audit never gives up.**  An audited call fails only where a placeholder is
unknown. -/
theorem auditedText_error {r : Resolver} {pass₀ : Pass} (hr : r.passes = [pass₀])
    {trail : Trail} (htrail : trail.Orderly) {pass : Pass} {text : String} {e : Unresolved}
    (he : r.auditedText trail pass text = .error e) : r.Misses e := by
  induction hw : callWeight trail text using Nat.strongRecOn
    generalizing trail pass text e with
  | ind w ih =>
      subst hw
      -- calls that are not lighter are never made, so they may as well succeed
      have hcalm : r.auditedText trail pass text =
          r.resolveLevel Trail.admits (fun trail' pass' text' =>
            if trail'.Orderly ∧ callWeight trail' text' < callWeight trail text then
              r.auditedText trail' pass' text'
            else .ok .null) trail pass text := by
        rw [auditedText_eq hr htrail]
        refine resolveLevel_congr_of_lighter hr htrail fun trail' pass' text' htrail' hl => ?_
        rw [if_pos ⟨htrail', hl⟩]
      rw [hcalm] at he
      have hmissing : r.options.failOnUnresolvable = true →
          ∀ placeholder, r.Misses (.missing placeholder) :=
        fun hstrict placeholder => ⟨hstrict, placeholder, rfl⟩
      refine resolveLevel_error hmissing ?_ he
      intro trail' pass' text' e' he'
      split at he'
      · next hcall => exact ih _ hcall.2 hcall.1 he' rfl
      · contradiction

/-- A depth of at least the bound gives the audited resolution. -/
theorem resolveText_nil_eq_auditedText {r : Resolver} {pass₀ : Pass} (hr : r.passes = [pass₀])
    {depth : Nat} (hdepth : weightBound ≤ depth) :
    resolveText Trail.admits r depth [] = r.auditedText [] := by
  funext pass text
  exact resolveText_eq_auditedText hr Trail.orderly_nil
    (Nat.le_trans (callWeight_le [] text) hdepth)

/-- The depth that resolution runs with gives the audited resolution. -/
theorem resolveText_reentryLimit {r : Resolver} {pass₀ : Pass} (hr : r.passes = [pass₀]) :
    resolveText Trail.admits r reentryLimit [] = r.auditedText [] :=
  resolveText_nil_eq_auditedText hr (by decide)

/-- Against one layer a lone text is resolved by the audited resolution. -/
theorem resolveScalar_eq_auditedText {r : Resolver} {pass : Pass} (hr : r.passes = [pass])
    (text : String) : r.resolveScalar text = r.auditedText [] pass text := by
  rw [resolveScalar, resolveScalarBy_congr (resolveText_reentryLimit hr), resolveScalarBy, hr,
    throughPasses_singleton]

/-- A tree fails against one layer only where a placeholder is unknown. -/
theorem resolveAll_failure {r : Resolver} {pass₀ : Pass} (hr : r.passes = [pass₀])
    {tree : Mapping} {e : Unresolved} (he : (r.resolveAll tree).failure = some e) :
    r.Misses e := by
  rw [resolveAll, resolveAllBy_congr (resolveText_reentryLimit hr)] at he
  exact resolveAllBy_failure (fun _ _ _ he => auditedText_error hr Trail.orderly_nil he) he

/-- A lone text fails against one layer only where a placeholder is unknown. -/
theorem resolveScalar_error {r : Resolver} {pass₀ : Pass} (hr : r.passes = [pass₀])
    {text : String} {e : Unresolved} (he : r.resolveScalar text = .error e) : r.Misses e := by
  rw [resolveScalar, resolveScalarBy_congr (resolveText_reentryLimit hr)] at he
  exact resolveScalarBy_error (fun _ _ _ he => auditedText_error hr Trail.orderly_nil he) he

end Resolver

/-- **Resolution against one layer ends.**  Whatever the layer holds, a tree and a
text are resolved, or a placeholder is unknown and that is an error.  The run is the
audited one: every nested call is made below a trail of at most `trailLimit` paths,
none of them twice, and is lighter than the call that makes it.  So the bound on the
depth is never met, and a larger one changes nothing. -/
theorem single_layer_resolution_ends (options : ResolverOptions) (layer : Layer) :
    let r : Resolver := ⟨[layer], options⟩
    (∀ tree, r.resolveAll tree = r.resolveAllBy r.auditedText tree ∧
      ((∃ tree', r.resolveAll tree = .done tree') ∨
        options.failOnUnresolvable = true ∧
          ∃ tree' placeholder, r.resolveAll tree = .stop tree' (.missing placeholder))) ∧
    (∀ text, r.resolveScalar text = r.resolveScalarBy r.auditedText text ∧
      ((∃ v, r.resolveScalar text = .ok v) ∨
        options.failOnUnresolvable = true ∧
          ∃ placeholder, r.resolveScalar text = .error (.missing placeholder))) ∧
    (∀ depth, weightBound ≤ depth →
      (∀ tree, r.resolveAllBy (resolveText Trail.admits r depth) tree = r.resolveAll tree) ∧
      ∀ text, r.resolveScalarBy (resolveText Trail.admits r depth) text =
        r.resolveScalar text) ∧
    ∀ trail path, Trail.Orderly trail → Trail.admits trail path = true →
      Trail.Orderly (trail ++ [path]) := by
  intro r
  have hr : r.passes = [⟨layer, true⟩] := rfl
  have hrun : resolveText Trail.admits r reentryLimit [] = r.auditedText [] :=
    Resolver.resolveText_reentryLimit hr
  have hdeep : ∀ depth, weightBound ≤ depth →
      resolveText Trail.admits r depth [] = resolveText Trail.admits r reentryLimit [] :=
    fun depth hdepth => (Resolver.resolveText_nil_eq_auditedText hr hdepth).trans hrun.symm
  refine ⟨fun tree => ⟨Resolver.resolveAllBy_congr hrun tree, ?_⟩,
    fun text => ⟨Resolver.resolveScalarBy_congr hrun text, ?_⟩,
    fun depth hdepth => ⟨fun tree => Resolver.resolveAllBy_congr (hdeep depth hdepth) tree,
      fun text => Resolver.resolveScalarBy_congr (hdeep depth hdepth) text⟩,
    fun trail path htrail hadmits => htrail.append hadmits⟩
  · cases hfail : (r.resolveAll tree).failure with
    | none => exact Or.inl ⟨_, Edited.eq_done hfail⟩
    | some e =>
        obtain ⟨hstrict, placeholder, rfl⟩ := Resolver.resolveAll_failure hr hfail
        exact Or.inr ⟨hstrict, _, placeholder, Edited.eq_stop hfail⟩
  · cases hvalue : r.resolveScalar text with
    | ok v => exact Or.inl ⟨v, rfl⟩
    | error e =>
        obtain ⟨hstrict, placeholder, rfl⟩ := Resolver.resolveScalar_error hr hvalue
        exact Or.inr ⟨hstrict, placeholder, rfl⟩

/-- Two texts that refer to each other, a mapping with a key that refers to one of
them, and a nested placeholder. -/
def knottedLayer : Layer :=
  ⟨"knot", [("a", .str "${/b}"), ("b", .str "${/a}"), ("m", .map [("${/a}", .str "${/m}")]),
    ("n", .str "${/x.${/a}}")]⟩

/-- A knotted layer resolves against itself, at the bound already. -/
theorem knotted_layer_resolution_ends :
    let r : Resolver := ⟨[knottedLayer], ⟨true, true, true⟩⟩
    weightBound ≤ 22 ∧
      r.resolveAllBy (resolveText Trail.admits r 22) knottedLayer.data =
        r.resolveAll knottedLayer.data ∧
      r.resolveScalarBy (resolveText Trail.admits r 22) "${/a}" = r.resolveScalar "${/a}" ∧
      Trail.Orderly [] ∧ Trail.admits [] "/a" = true ∧ Trail.Orderly ["/a"] := by
  intro r
  have hends := single_layer_resolution_ends ⟨true, true, true⟩ knottedLayer
  have hbound : weightBound ≤ 22 := by decide
  have hadmits : Trail.admits [] "/a" = true := by decide
  exact ⟨hbound, (hends.2.2.1 22 hbound).1 _, (hends.2.2.1 22 hbound).2 _, Trail.orderly_nil,
    hadmits, hends.2.2.2 [] "/a" Trail.orderly_nil hadmits⟩

end LayeredConfig
