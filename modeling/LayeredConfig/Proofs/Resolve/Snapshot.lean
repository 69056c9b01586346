import LayeredConfig.Proofs.Resolve.Flat
import LayeredConfig.Proofs.Resolve.Renaming
import LayeredConfig.Proofs.Tree.Rewrite

/-!
# Resolving a tree against a snapshot

The running configuration is resolved against one layer, a snapshot of itself, and its
keys are usually left alone.  Then a resolution that goes through is a replacement of
texts: every string becomes what resolving it alone gives, wherever it stands
(`resolveAll_single`).

Values that are put in come from a layer, so they are well formed if the layers are
(`resolveText_wellFormed`), and the tree stays well formed, whatever is done to its keys and
also where resolution stops (`wellFormed_resolveAll`).
-/

namespace LayeredConfig

open Placeholder

namespace Value

variable {f : String → Except Unresolved Value}

/-- What a walk makes of a string. -/
def settledText (f : String → Except Unresolved Value) (text : String) : Value :=
  ((Value.str text).resolveLeaves f .done).result

/-- Where a walk goes through, it goes through every string. -/
theorem resolveLeaves_text_of_done {v : Value} (h : (v.resolveLeaves f .done).failure = none) :
    ∀ text ∈ v.texts, ((Value.str text).resolveLeaves f .done).failure = none := by
  rw [failure_resolveLeaves] at h
  exact List.findSome?_eq_none_iff.mp h

/-- **A walk that goes through replaces the texts**, each by what becomes of it alone. -/
theorem resolveLeaves_eq_mapText {v : Value} (h : (v.resolveLeaves f .done).failure = none) :
    v.resolveLeaves f .done = .done (v.mapText (settledText f)) := by
  have hwalk : (v.mapText .str).resolveLeaves f .done = .done (v.mapText (settledText f)) :=
    resolveLeaves_mapText fun text htext => Edited.eq_done (resolveLeaves_text_of_done h text htext)
  rwa [mapText_str] at hwalk

/-- A text without placeholders is settled. -/
theorem settledText_of_plain {text : String} (h : contains text = false) :
    settledText f text = .str text := by
  rw [settledText, resolveLeaves_str_of_plain h]
  rfl

/-- A text that the function settles becomes what the function gives. -/
theorem settledText_of_ok {text : String} {v : Value} (hcontains : contains text = true)
    (h : f text = .ok v) : settledText f text = v := by
  simp [settledText, resolveLeaves, hcontains, h]

end Value

/-! ## Values that are put in -/

/-- What a pass finds is well formed if its layer is. -/
theorem Pass.wellFormed_of_find? {pass : Pass} (hdata : (Value.map pass.layer.data).WellFormed)
    {key : String} {found : Value} (h : pass.find? key = some found) : found.WellFormed := by
  rcases Pass.find?_cases h with hlayer | ⟨fallback, -, rfl⟩
  · obtain ⟨p, -, hget⟩ := Option.bind_eq_some_iff.mp (Layer.find?_eq_some_iff.mp hlayer).1
    rw [Mapping.get?] at hget
    split at hget
    · contradiction
    · exact hdata.at? hget
  · trivial

namespace Resolver

variable {r : Resolver} {admits : Trail → String → Bool} {pass : Pass}

/-- What is found stays well formed when it is expanded, if deeper resolutions give
well-formed values. -/
theorem wellFormed_expand {f : TextResolution}
    (hf : ∀ trail text v, f trail pass text = .ok v → v.WellFormed) {trail : Trail}
    {key : String} {found v : Value} (hfound : found.WellFormed)
    (h : r.expand admits f trail pass key found = .ok v) : v.WellFormed := by
  by_cases hadmits : admits trail (pathText key) = true
  · by_cases hstr : ∃ text, found = .str text
    · obtain ⟨text, rfl⟩ := hstr
      rw [expand_str hadmits] at h
      split at h
      · exact hf _ _ _ h
      · obtain rfl : Value.str text = v := Except.ok.inj h
        trivial
    · rw [expand_of_ne_str hadmits fun text htext => hstr ⟨text, htext⟩] at h
      obtain rfl := congrArg Edited.result (Edited.toExcept_eq_ok h)
      exact Value.wellFormed_resolveLeaves hfound (hf _) fun _ => wellFormed_resolveKeys _ _
  · rw [expand_of_not_admits (by simpa using hadmits)] at h
    obtain rfl : found = v := Except.ok.inj h
    exact hfound

/-- Filling in one key keeps the value well formed, if what is found stays so when it is
expanded. -/
theorem wellFormed_fillKey {strict : Bool} {expand : String → Value → Except Unresolved Value}
    (hexpand : ∀ key found v, pass.find? key = some found → expand key found = .ok v →
      v.WellFormed) {current v : Value} {key : String} (hcurrent : current.WellFormed)
    (h : fillKey strict pass expand current key = .ok v) : v.WellFormed := by
  unfold fillKey at h
  split at h
  · split at h
    · next found hfound =>
        obtain ⟨w, hw, h⟩ := bind_ok h
        split at h
        · exact Except.ok.inj h ▸ hexpand key found w hfound hw
        · exact Except.ok.inj h ▸ trivial
    · split at h
      · contradiction
      · exact Except.ok.inj h ▸ hcurrent
  · exact Except.ok.inj h ▸ hcurrent

/-- **Values that resolution gives are well formed** if the layer is. -/
theorem resolveText_wellFormed (hdata : (Value.map pass.layer.data).WellFormed) {depth : Nat}
    {trail : Trail} {text : String} {v : Value}
    (h : resolveText admits r depth trail pass text = .ok v) :
    v.WellFormed := by
  induction depth generalizing trail text v with
  | zero => contradiction
  | succ depth ih =>
      rw [resolveText, resolveLevel] at h
      obtain ⟨collapsed, -, h⟩ := bind_ok h
      have hstr : (Value.str collapsed).WellFormed := trivial
      refine foldlM_ok (fun current key v hcurrent hv => ?_) hstr h
      refine wellFormed_fillKey (fun key found w hfound hw => ?_) hcurrent hv
      exact wellFormed_expand (fun _ _ _ => ih) (Pass.wellFormed_of_find? hdata hfound) hw

/-- **A tree stays well formed when it is resolved** against layers that are, also if that
stops. -/
theorem wellFormed_resolveAll
    (hlayers : ∀ pass ∈ r.passes, (Value.map pass.layer.data).WellFormed) {tree : Mapping}
    (htree : (Value.map tree).WellFormed) :
    (Value.map (r.resolveAll tree).result).WellFormed := by
  have hpass : ∀ (tree : Mapping), ∀ pass ∈ r.passes, (Value.map tree).WellFormed →
      (Value.map (r.resolvePassBy (resolveText Trail.admits r reentryLimit) pass
        tree).result).WellFormed := by
    intro tree pass hpass htree
    -- a pass does to the tree what a walk does to a mapping, renaming included
    have hwalk : ((Value.map tree).resolveLeaves (resolveText Trail.admits r reentryLimit [] pass)
        (resolveKeys r.options.keyResolution
          (r.resolveScalarBy (resolveText Trail.admits r reentryLimit)))).result.WellFormed :=
      Value.wellFormed_resolveLeaves htree
        (fun _ _ => resolveText_wellFormed (hlayers pass hpass))
        fun _ => wellFormed_resolveKeys _ _
    rw [Value.resolveLeaves, Edited.result_map] at hwalk
    exact hwalk
  exact Edited.foldl_keeps hpass htree

end Resolver

/-! ## One layer, keys left alone -/

section Single

variable {options : ResolverOptions} {name : String} {data tree out : Mapping}

/-- What resolving a text against a snapshot makes of it. -/
def snapshotText (options : ResolverOptions) (name : String) (data : Mapping) (text : String) :
    Value :=
  Value.settledText
    (resolveText Trail.admits (Resolver.single options name data) reentryLimit []
      ⟨⟨name, data⟩, true⟩) text

/-- Resolving against a snapshot is the walk over the tree. -/
theorem Resolver.resolveLeaves_of_resolveAll (hkeys : options.keyResolution = false)
    (h : (Resolver.single options name data).resolveAll tree = .done out) :
    (Value.map tree).resolveLeaves
      (resolveText Trail.admits (Resolver.single options name data) reentryLimit []
        ⟨⟨name, data⟩, true⟩) .done = .done (.map out) := by
  have hpasses : (Resolver.single options name data).passes = [⟨⟨name, data⟩, true⟩] := rfl
  rw [resolveAll, resolveAllBy_singleton hpasses hkeys] at h
  rw [Value.resolveLeaves, Edited.andThen_done, h, Edited.done_map]

/-- **Resolving against a snapshot replaces the texts.** -/
theorem Resolver.resolveAll_single (hkeys : options.keyResolution = false)
    (h : (Resolver.single options name data).resolveAll tree = .done out) :
    out = Value.mapTextEntries (snapshotText options name data) tree := by
  have hwalk := resolveLeaves_of_resolveAll hkeys h
  rw [Value.resolveLeaves_eq_mapText (congrArg Edited.failure hwalk)] at hwalk
  exact (Value.map.inj (congrArg Edited.result hwalk)).symm

/-- A text that is one placeholder becomes what the snapshot holds at its path, if there is
no placeholder in that. -/
theorem snapshotText_wrap (hkeys : options.keyResolution = false) {key : String}
    (hkey : Inert key.toList) {v : Value}
    (hfound : (Layer.mk name data).find? (pathText key) = some v)
    (hplain : ∀ text ∈ v.texts, contains text = false) :
    snapshotText options name data (wrap key) = v := by
  have hpass : (Pass.mk ⟨name, data⟩ true).find? key = some v := Pass.find?_of_layer hfound
  refine Value.settledText_of_ok (contains_wrap hkey) ?_
  exact (Resolver.resolveLevel_wrap hkey hpass).trans (Resolver.expand_of_plain hkeys hplain)

/-- A text that is one placeholder without a fallback stays for as long as the snapshot
holds nothing at its path. -/
theorem snapshotText_wrap_of_find?_eq_none (hlenient : options.failOnUnresolvable = false)
    {key : String} (hkey : Inert key.toList) (hfallback : (splitDefault key).2 = none)
    (hnone : (Layer.mk name data).find? (pathText key) = none) :
    snapshotText options name data (wrap key) = .str (wrap key) := by
  have hpass : (Pass.mk ⟨name, data⟩ true).find? key = none := by
    rw [Pass.find?_eq, hnone, hfallback]
    simp
  refine Value.settledText_of_ok (contains_wrap hkey) ?_
  exact Resolver.resolveLevel_wrap_of_find?_eq_none hkey hlenient hpass

end Single

end LayeredConfig
