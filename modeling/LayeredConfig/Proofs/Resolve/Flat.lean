import LayeredConfig.Proofs.Resolve.Ending
import LayeredConfig.Proofs.Resolve.Lookup

/-!
# Texts without nesting, keys without resolution

Where no placeholder is nested in another one, a level of resolution is one look-up
and one replacement for each key of the text.  Where the keys of mappings are not
resolved, a tree is resolved by the walk over its leaves alone.

* `resolveLevel_of_flat` and `resolveLevel_wrap`: the level on a text without
  nesting, and on a text that is one placeholder;
* `expand_congr_texts` and `expand_of_plain`: expansion depends on the texts of what
  was found, and leaves a value without placeholders as it is;
* `resolvePassBy_of_keys`: one pass over a tree;
* `resolveScalar_of_flat` and `resolveScalar_wrap`: a lone text against one layer.
-/

namespace LayeredConfig

open Placeholder

section FillKey

variable {strict : Bool} {pass : Pass} {expand : String → Value → Except Unresolved Value}
  {key : String}

/-- A key that the pass knows is filled in: with the value itself where the text is nothing but
the key's placeholder, else with its written form. -/
theorem fillKey_of_find? {found v : Value} (hfound : pass.find? key = some found)
    (hexpand : expand key found = .ok v) (text : String) :
    fillKey strict pass expand (.str text) key =
      .ok (if text = wrap key then v else .str (substitute key v.toText text)) := by
  simp only [fillKey, hfound, hexpand]
  exact (apply_ite Except.ok _ _ _).symm

/-- A key that the pass does not know stays, unless that is an error. -/
theorem fillKey_of_find?_eq_none (hfound : pass.find? key = none) (text : String) :
    fillKey strict pass expand (.str text) key =
      if strict && pass.last then .error (.missing (wrap key)) else .ok (.str text) := by
  simp only [fillKey, hfound]

/-- In a text that is more than the key's placeholder the value is written out, and the other
keys follow. -/
theorem foldlM_fillKey_put {found v : Value} (hfound : pass.find? key = some found)
    (hexpand : expand key found = .ok v) {text : String} (htext : text ≠ wrap key)
    (ks : List String) :
    (key :: ks).foldlM (fillKey strict pass expand) (.str text) =
      ks.foldlM (fillKey strict pass expand) (.str (substitute key v.toText text)) := by
  rw [List.foldlM_cons, fillKey_of_find? hfound hexpand, if_neg htext]
  rfl

end FillKey

/-- Keys that are not to be resolved stay. -/
theorem resolveKeys_false (value : String → Except Unresolved Value) :
    resolveKeys false value = .done := by
  funext m
  simp [resolveKeys]

namespace Resolver

variable {r : Resolver} {admits admits' : Trail → String → Bool} {f g : TextResolution}
  {trail : Trail} {pass : Pass}

/-- A text without nesting has its keys filled in, one after the other. -/
theorem resolveLevel_of_flat {text : String} (h : nestedKeys text = []) :
    r.resolveLevel admits f trail pass text =
      (keys text).eraseDups.foldlM
        (fillKey r.options.failOnUnresolvable pass (r.expand admits f trail pass))
        (.str text) := by
  simp only [resolveLevel, collapse_of_nestedKeys_eq_nil h]
  rfl

/-- **One placeholder alone** becomes the expanded value itself. -/
theorem resolveLevel_wrap {key : String} (hkey : Inert key.toList) {found : Value}
    (hfound : pass.find? key = some found) :
    r.resolveLevel admits f trail pass (wrap key) = r.expand admits f trail pass key found := by
  have hkeys : (keys (wrap key)).eraseDups = [key] := by
    rw [keys_wrap hkey]
    rfl
  rw [resolveLevel_of_flat (nestedKeys_wrap hkey), hkeys, List.foldlM_cons]
  simp only [List.foldlM_nil, fillKey, hfound, if_true]
  cases r.expand admits f trail pass key found <;> rfl

/-- One placeholder alone that the pass does not know stays, unless that is an error. -/
theorem resolveLevel_wrap_of_find?_eq_none {key : String} (hkey : Inert key.toList)
    (hlenient : r.options.failOnUnresolvable = false) (hfound : pass.find? key = none) :
    r.resolveLevel admits f trail pass (wrap key) = .ok (.str (wrap key)) := by
  have hkeys : (keys (wrap key)).eraseDups = [key] := by
    rw [keys_wrap hkey]
    rfl
  rw [resolveLevel_of_flat (nestedKeys_wrap hkey), hkeys, List.foldlM_cons]
  simp [fillKey, hfound, hlenient]

/-- A value without placeholders is expanded to itself. -/
theorem expand_of_plain (hkeys : r.options.keyResolution = false) {key : String} {found : Value}
    (hplain : ∀ text ∈ found.texts, contains text = false) :
    r.expand admits f trail pass key found = .ok found := by
  by_cases hadmits : admits trail (pathText key) = true
  · by_cases hstr : ∃ text, found = .str text
    · obtain ⟨text, rfl⟩ := hstr
      have htext : contains text = false := hplain text (by simp)
      simp [expand_str hadmits, htext]
    · rw [expand_of_ne_str hadmits fun text htext => hstr ⟨text, htext⟩, hkeys,
        resolveKeys_false, Value.resolveLeaves_of_plain hplain]
      rfl
  · exact expand_of_not_admits (by simpa using hadmits) found

/-- **Expansion depends on the texts of what was found**, where the path is
admitted. -/
theorem expand_congr_texts (hkeys : r.options.keyResolution = false) {key : String}
    {found : Value} (hadmits : admits trail (pathText key) = true)
    (hadmits' : admits' trail (pathText key) = true)
    (h : ∀ text ∈ found.texts, contains text = true →
      f (trail ++ [pathText key]) pass text = g (trail ++ [pathText key]) pass text) :
    r.expand admits f trail pass key found = r.expand admits' g trail pass key found := by
  by_cases hstr : ∃ text, found = .str text
  · obtain ⟨text, rfl⟩ := hstr
    rw [expand_str hadmits, expand_str hadmits']
    by_cases htext : contains text = true
    · rw [h text (by simp) htext]
    · simp [htext]
  · have hne : ∀ text, found ≠ .str text := fun text htext => hstr ⟨text, htext⟩
    rw [expand_of_ne_str hadmits hne, expand_of_ne_str hadmits' hne, hkeys,
      resolveKeys_false, resolveKeys_false, Value.resolveLeaves_congr h]

/-- One pass over a tree is the walk over its leaves. -/
theorem resolvePassBy_of_keys (hkeys : r.options.keyResolution = false) (run : TextResolution)
    (pass : Pass) (tree : Mapping) :
    r.resolvePassBy run pass tree = Value.resolveEntries (run [] pass) .done tree := by
  rw [resolvePassBy, hkeys, resolveKeys_false, Edited.andThen_done]

/-- Against one pass a tree is resolved by the walk over its leaves. -/
theorem resolveAllBy_singleton (hr : r.passes = [pass])
    (hkeys : r.options.keyResolution = false) (run : TextResolution) (tree : Mapping) :
    r.resolveAllBy run tree = Value.resolveEntries (run [] pass) .done tree := by
  rw [resolveAllBy, hr, Edited.foldl, resolvePassBy_of_keys hkeys]
  exact Edited.andThen_done _

/-! ## Lone texts against one layer -/

/-- Against one layer a lone text without nesting has its keys filled in, one after the
other. -/
theorem resolveScalar_of_flat (hr : r.passes = [pass]) {text : String}
    (h : nestedKeys text = []) :
    r.resolveScalar text = (keys text).eraseDups.foldlM
      (fillKey r.options.failOnUnresolvable pass (r.expand Trail.admits r.auditedText [] pass))
      (.str text) := by
  rw [resolveScalar_eq_auditedText hr, auditedText_eq hr Trail.orderly_nil,
    resolveLevel_of_flat h]

/-- Against one layer a placeholder that stands alone becomes the expanded value. -/
theorem resolveScalar_wrap (hr : r.passes = [pass]) {key : String} (hkey : Inert key.toList)
    {found : Value} (hfound : pass.find? key = some found) :
    r.resolveScalar (wrap key) = r.expand Trail.admits r.auditedText [] pass key found := by
  rw [resolveScalar_eq_auditedText hr, auditedText_eq hr Trail.orderly_nil,
    resolveLevel_wrap hkey hfound]

/-- **A text without placeholders** resolves to itself. -/
theorem resolveScalar_of_plain (hr : r.passes = [pass]) {text : String}
    (h : contains text = false) : r.resolveScalar text = .ok (.str text) := by
  have hkeys : keys text = [] := by
    by_contra hne
    rw [contains_iff.mpr hne] at h
    contradiction
  rw [resolveScalar_of_flat hr (nestedKeys_of_contains_eq_false h), hkeys]
  rfl

end Resolver

end LayeredConfig
