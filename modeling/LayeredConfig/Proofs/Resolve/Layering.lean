import LayeredConfig.Proofs.Resolve.Sequence

/-!
# Layers fill a tree in all at once

Resolving against several layers rewrites the tree layer after layer, and a text key
after key.  The order does not show where nothing is nested and where what the layers
hold is inert: every leaf is then filled in once, from the first layer that knows the
path, or from the fallback of the key.

The invariant of the passes is the tree itself: after some passes it is the original
tree with every leaf filled in from the layers seen so far.  So a pass cannot disturb
what an earlier one left for it, and a key that was filled in is gone.

* `foldlM_fillKey`: the keys of a text, one after the other, fill it in all at once;
* `resolveLeaves_settledLeaf`: one pass over one leaf;
* `foldl_resolvePassBy`: all passes over a tree;
* `layers_fill_all_at_once`: the result for a resolver.
-/

namespace LayeredConfig

open Placeholder

/-- The leaf that a text becomes if the values found for its keys are put in all at
once: the value itself if the text is one placeholder, else the text filled in. -/
def settledLeaf (find : String → Option Value) (text : String) : Value :=
  match soleKey? text with
  | some key => (find key).getD (.str text)
  | none => .str (fill (fun key => (find key).map Value.toText) text)

/-- What is found for the keys of a text are scalars with an inert written form. -/
def Spliceable (find : String → Option Value) (text : String) : Prop :=
  ∀ key ∈ keys text, ∀ v, find key = some v → v.isComposite = false ∧ Inert v.toText.toList

variable {find other : String → Option Value} {text : String}

/-- The written forms of what is found are tidy. -/
theorem Spliceable.tidy (h : Spliceable find text) :
    TidyValues ∅ (fun key => (find key).map Value.toText) text := by
  refine tidyValues_of_inert fun key hkey new hnew => ?_
  obtain ⟨v, hv, rfl⟩ := Option.map_eq_some_iff.mp hnew
  exact (h key hkey v hv).2

/-- The written forms of what is found are not empty. -/
theorem Spliceable.nonempty (h : Spliceable find text) :
    ∀ key ∈ keys text, (find key).map Value.toText ≠ some "" := by
  intro key hkey hempty
  obtain ⟨v, hv, htext⟩ := Option.map_eq_some_iff.mp hempty
  exact (h key hkey v hv).2.1 (String.toList_eq_nil_iff.mpr htext)

/-- What is found in one place, or else in another. -/
theorem Spliceable.or (h : Spliceable find text) (hother : Spliceable other text) :
    Spliceable (fun key => (find key).or (other key)) text := by
  intro key hkey v hv
  rcases Option.or_eq_some_iff.mp hv with hfind | ⟨-, hfind⟩
  · exact h key hkey v hfind
  · exact hother key hkey v hfind

/-- A scalar with an inert written form has no placeholders. -/
theorem contains_of_mem_texts {v : Value} (hv : v.isComposite = false)
    (hinert : Inert v.toText.toList) : ∀ text ∈ v.texts, contains text = false := by
  intro text htext
  rw [Value.texts_of_scalar hv] at htext
  cases v with
  | str own =>
      obtain rfl : text = own := by simpa [Value.asString?] using htext
      exact contains_of_key_chars hinert.2
  | _ => simp [Value.asString?] at htext

/-- A leaf with a text that nothing is found for stays. -/
theorem settledLeaf_none (text : String) : settledLeaf (fun _ => none) text = .str text := by
  unfold settledLeaf
  split
  · rfl
  · exact congrArg Value.str (fill_of_forall_none fun _ _ => rfl)

/-! ## One pass over one text -/

section Pass

variable {r : Resolver} {admits : Trail → String → Bool} {deeper : TextResolution}
  {trail : Trail} {pass : Pass}

/-- **Key after key is all at once.**  Keys that are filled in one after the other, in a
text that is not one placeholder, are filled in all at once. -/
theorem foldlM_fillKey {expand : String → Value → Except Unresolved Value}
    (hexpand : ∀ key ∈ keys text, ∀ found, pass.find? key = some found →
      expand key found = .ok found)
    (hflat : nestedKeys text = []) (hsole : soleKey? text = none)
    (hfind : Spliceable pass.find? text) :
    (keys text).eraseDups.foldlM (fillKey false pass expand) (.str text) =
      .ok (.str (fill pass.text? text)) := by
  have hundisturbed : Undisturbed pass.text? text :=
    undisturbed_of_tidy hflat hfind.tidy hfind.nonempty fun _ _ => id
  obtain ⟨v, hv, hwritten⟩ := foldlM_fillKey_keys hexpand hundisturbed
  have hput : ∀ key ks own found u, key ∈ keys text → AllInside (key :: ks) own →
      pass.find? key = some found → expand key found = .ok u →
        AllInside ks (substitute key u.toText own) := by
    intro key ks own found u hkey hinside hfound hu
    obtain rfl : found = u := Except.ok.inj ((hexpand key hkey found hfound).symm.trans hu)
    refine hinside.substitute fun hempty => ?_
    exact (hfind key hkey found hfound).2.1 (String.toList_eq_nil_iff.mpr hempty)
  obtain ⟨out, rfl, -⟩ := foldlM_fillKey_str (P := AllInside) (fun _ _ _ => not_allInside_wrap)
    (fun _ _ _ => AllInside.tail) hput (fun _ => List.mem_eraseDups.mp) (allInside_keys hsole) hv
  rw [hv, ← hwritten]
  rfl

/-- **One pass over one leaf.**  A leaf that was filled in from one place is filled in
further from the pass; what was found before stays. -/
theorem resolveLeaves_settledLeaf (hkeys : r.options.keyResolution = false)
    (hlenient : r.options.failOnUnresolvable = false) (hflat : nestedKeys text = [])
    (hfind : Spliceable find text) (hpass : Spliceable pass.find? text) :
    (settledLeaf find text).resolveLeaves (r.resolveLevel admits deeper trail pass) .done =
      .done (settledLeaf (fun key => (find key).or (pass.find? key)) text) := by
  have hexpand : ∀ key ∈ keys text, ∀ found, pass.find? key = some found →
      r.expand admits deeper trail pass key found = .ok found := by
    intro key hkey found hfound
    obtain ⟨hscalar, hinert⟩ := hpass key hkey found hfound
    exact Resolver.expand_of_plain hkeys (contains_of_mem_texts hscalar hinert)
  cases hsole : soleKey? text with
  | some key =>
      obtain ⟨rfl, hkey⟩ := soleKey?_eq_some_iff.mp hsole
      have hmem : key ∈ keys (wrap key) := mem_keys_wrap hkey
      simp only [settledLeaf, hsole]
      cases hv : find key with
      | some v =>
          obtain ⟨hscalar, hinert⟩ := hfind key hmem v hv
          exact Value.resolveLeaves_of_plain (contains_of_mem_texts hscalar hinert)
      | none =>
          rw [Option.getD_none, Option.none_or, Value.resolveLeaves, if_pos (contains_wrap hkey)]
          cases hfound : pass.find? key with
          | some found =>
              rw [Resolver.resolveLevel_wrap hkey hfound, hexpand key hmem found hfound]
              rfl
          | none =>
              rw [Resolver.resolveLevel_wrap_of_find?_eq_none hkey hlenient hfound]
              rfl
  | none =>
      have hflat' := nestedKeys_fill hflat hfind.tidy hfind.nonempty
      have hsole' := soleKey?_fill hflat hfind.tidy hfind.nonempty hsole
      have hold : ∀ key ∈ keys (fill (fun key => (find key).map Value.toText) text),
          key ∈ keys text := by
        intro key hkey
        rcases mem_keys_fill hflat hfind.tidy hfind.nonempty hkey with hnew | ⟨hmem, -⟩
        · exact hnew.elim
        · exact hmem
      have htwice : fill (fun key => (pass.find? key).map Value.toText)
            (fill (fun key => (find key).map Value.toText) text) =
          fill (fun key => ((find key).or (pass.find? key)).map Value.toText) text := by
        rw [fill_fill hflat hfind.tidy hfind.nonempty fun _ hkey => hkey.elim]
        exact fill_congr fun key _ => by rw [Option.map_or]
      simp only [settledLeaf, hsole]
      rw [Value.resolveLeaves, ← htwice]
      split
      · rw [Resolver.resolveLevel_of_flat hflat', hlenient,
          foldlM_fillKey (fun key hkey => hexpand key (hold key hkey)) hflat' hsole'
            fun key hkey => hpass key (hold key hkey)]
        rfl
      · next hcontains =>
          rw [fill_of_forall_none fun key hkey =>
            absurd (contains_iff.mpr (List.ne_nil_of_mem hkey)) hcontains]

end Pass

/-! ## All passes over a tree -/

/-- **All passes over a tree.**  Passes over a tree whose leaves were filled in from one
place fill them in further, from the first pass that knows a key. -/
theorem foldl_resolvePassBy {r : Resolver} {admits : Trail → String → Bool}
    {run deeper : TextResolution} (hrun : run [] = r.resolveLevel admits deeper [])
    (hkeys : r.options.keyResolution = false) (hlenient : r.options.failOnUnresolvable = false)
    {passes : List Pass} {tree : Mapping}
    (hfind : ∀ text ∈ tree.texts, Spliceable find text)
    (htexts : ∀ text ∈ tree.texts, nestedKeys text = [] ∧
      ∀ pass ∈ passes, Spliceable pass.find? text) :
    Edited.foldl (fun tree pass => r.resolvePassBy run pass tree)
        (Value.mapTextEntries (settledLeaf find) tree) passes =
      .done (Value.mapTextEntries
        (settledLeaf fun key => (find key).or (passes.findSome? fun pass => pass.find? key))
        tree) := by
  induction passes generalizing find with
  | nil => simp [Edited.foldl]
  | cons pass passes ih =>
      have hpass : Value.resolveEntries (run [] pass) .done
            (Value.mapTextEntries (settledLeaf find) tree) =
          .done (Value.mapTextEntries
            (settledLeaf fun key => (find key).or (pass.find? key)) tree) := by
        refine Mapping.resolveEntries_mapText fun text htext => ?_
        obtain ⟨hflat, hpasses⟩ := htexts text htext
        rw [hrun]
        exact resolveLeaves_settledLeaf hkeys hlenient hflat (hfind text htext)
          (hpasses pass List.mem_cons_self)
      have hrest := ih (fun text htext =>
          (hfind text htext).or ((htexts text htext).2 pass List.mem_cons_self))
        fun text htext => ⟨(htexts text htext).1, fun other hother =>
          (htexts text htext).2 other (List.mem_cons_of_mem _ hother)⟩
      have hsame : (fun key => ((find key).or (pass.find? key)).or
            (passes.findSome? fun pass => pass.find? key)) =
          fun key => (find key).or ((pass :: passes).findSome? fun pass => pass.find? key) := by
        funext key
        rw [Option.or_assoc, List.findSome?_cons]
        cases pass.find? key <;> rfl
      rw [Edited.foldl, Resolver.resolvePassBy_of_keys hkeys, hpass, Edited.done_andThen, hrest,
        hsame]

/-- The layer of a pass is one of the layers. -/
theorem layer_mem_of_mem_passesOf {layers : List Layer} {pass : Pass}
    (h : pass ∈ passesOf layers) : pass.layer ∈ layers := by
  fun_induction passesOf layers with
  | case1 => simp at h
  | case2 layer =>
      rw [List.mem_singleton.mp h]
      exact List.mem_singleton_self layer
  | case3 layer rest hne ih =>
      rcases List.mem_cons.mp h with rfl | h
      · exact List.mem_cons_self
      · exact List.mem_cons_of_mem _ (ih h)

/-- What the passes find for a key whose path can be read: the value of the first layer
that has one, else the fallback. -/
theorem findSome?_passesOf {layers : List Layer} (hne : layers ≠ []) {key : String}
    (hread : (Path.read? (pathText key)).isSome = true) :
    ((passesOf layers).findSome? fun pass => pass.find? key) =
      (layers.findSome? fun layer => layer.find? (pathText key)).or
        ((splitDefault key).2.map .str) := by
  fun_induction passesOf layers with
  | case1 => contradiction
  | case2 layer => simp [Pass.find?_eq, hread]
  | case3 layer rest hrest ih =>
      have hrest' : rest ≠ [] := fun hnil => hrest hnil
      rw [List.findSome?_cons, List.findSome?_cons, ih hrest', Pass.find?_eq]
      cases layer.find? (pathText key) <;> simp

/-- The value that the layers and the fallback give for a key. -/
def Resolver.defined? (r : Resolver) (key : String) : Option Value :=
  (r.layers.findSome? fun layer => layer.find? (pathText key)).or
    ((splitDefault key).2.map .str)

/-- A text whose placeholders can be filled in from any layer: nothing is nested, every
path can be read, and what the layers and the fallbacks give is inert. -/
structure Resolver.Settles (r : Resolver) (text : String) : Prop where
  flat : nestedKeys text = []
  readable : ∀ key ∈ keys text, (Path.read? (pathText key)).isSome = true
  fallback : ∀ key ∈ keys text, (splitDefault key).2 ≠ some ""
  held : ∀ key ∈ keys text, ∀ layer ∈ r.layers, ∀ v, layer.find? (pathText key) = some v →
    v.isComposite = false ∧ Inert v.toText.toList

/-- Every pass gives inert values for the keys of such a text. -/
theorem Resolver.Settles.spliceable {r : Resolver} (h : r.Settles text) {pass : Pass}
    (hpass : pass ∈ r.passes) : Spliceable pass.find? text := by
  intro key hkey v hv
  rcases Pass.find?_cases hv with hlayer | ⟨fallback, hsplit, rfl⟩
  · exact h.held key hkey pass.layer (layer_mem_of_mem_passesOf hpass) v hlayer
  · have hne : fallback ≠ "" := fun hempty => h.fallback key hkey (hempty ▸ hsplit)
    exact ⟨rfl, inert_fallback (inert_of_mem_keys hkey) hsplit hne⟩

/-- The leaf depends on what is found for the keys of its text alone. -/
theorem settledLeaf_congr (h : ∀ key ∈ keys text, find key = other key) :
    settledLeaf find text = settledLeaf other text := by
  unfold settledLeaf
  split
  · next key hsole =>
      obtain ⟨rfl, hkey⟩ := soleKey?_eq_some_iff.mp hsole
      rw [h key (mem_keys_wrap hkey)]
  · refine congrArg Value.str (fill_congr fun key hkey => ?_)
    rw [h key hkey]

/-- **Layers fill a tree in all at once.**  Against one or more layers, with keys left
alone and unknown placeholders allowed, a tree whose texts settle becomes the tree with
every string leaf replaced: a leaf that is one placeholder by the value of the first
layer that has one, of whatever kind, or by the fallback, and any other leaf by its text
with all placeholders replaced by the written forms of these values.  Placeholders that
have neither stay. -/
theorem layers_fill_all_at_once (r : Resolver) (hne : r.layers ≠ [])
    (hkeys : r.options.keyResolution = false) (hlenient : r.options.failOnUnresolvable = false)
    (tree : Mapping) (htexts : ∀ text ∈ tree.texts, r.Settles text) :
    r.resolveAll tree = .done (Value.mapTextEntries (settledLeaf r.defined?) tree) := by
  have hrun : resolveText Trail.admits r reentryLimit [] =
      r.resolveLevel Trail.admits (resolveText Trail.admits r 999) [] := rfl
  have hstart : Value.mapTextEntries (settledLeaf fun _ => none) tree = tree := by
    rw [funext settledLeaf_none]
    exact Value.map.inj (Value.mapText_str (.map tree))
  have hnothing : ∀ text ∈ tree.texts, Spliceable (fun _ => none) text :=
    fun _ _ _ _ v hv => absurd hv (Option.some_ne_none v).symm
  have hpasses := foldl_resolvePassBy hrun hkeys hlenient hnothing
    fun text htext => ⟨(htexts text htext).flat, fun pass => (htexts text htext).spliceable⟩
  rw [hstart] at hpasses
  rw [Resolver.resolveAll, Resolver.resolveAllBy, hpasses]
  refine congrArg Edited.done (Mapping.mapTextEntries_congr fun text htext => ?_)
  refine settledLeaf_congr fun key hkey => ?_
  rw [Option.none_or, Resolver.defined?]
  exact findSome?_passesOf hne ((htexts text htext).readable key hkey)

/-- Two layers, the first of which holds a null that shadows nothing. -/
def stackedResolver : Resolver :=
  ⟨[⟨"first", [("a", .null), ("b", .int 1)]⟩, ⟨"second", [("a", .str "x"), ("b", .str "y")]⟩],
    ⟨true, false, false⟩⟩

/-- One placeholder alone, and all kinds of placeholders in one text. -/
def stackedTree : Mapping :=
  [("alone", .str "${/b:-0}"), ("mixed", .str "${/a}-${/b}-${/a}, ${/c:-d} and ${/e}")]

/-- The texts of the tree settle against the two layers. -/
theorem stackedTree_settles : ∀ text ∈ stackedTree.texts, stackedResolver.Settles text := by
  have hheld : ∀ text ∈ stackedTree.texts, ∀ key ∈ keys text, ∀ layer ∈ stackedResolver.layers,
      (layer.find? (pathText key)).all (fun v =>
        !v.isComposite && decide (Inert v.toText.toList)) = true := by decide
  have hflat : ∀ text ∈ stackedTree.texts, nestedKeys text = [] := by decide
  have hread : ∀ text ∈ stackedTree.texts, ∀ key ∈ keys text,
      (Path.read? (pathText key)).isSome = true := by decide
  have hfallback : ∀ text ∈ stackedTree.texts, ∀ key ∈ keys text,
      (splitDefault key).2 ≠ some "" := by decide
  intro text htext
  refine ⟨hflat text htext, hread text htext, hfallback text htext, ?_⟩
  intro key hkey layer hlayer v hv
  have hv' := hheld text htext key hkey layer hlayer
  rw [hv] at hv'
  simpa using hv'

/-- The first layer that knows a path counts, and then the fallback. -/
theorem stacked_layers_fill_all_at_once :
    stackedResolver.layers ≠ [] ∧ stackedResolver.options.keyResolution = false ∧
      stackedResolver.options.failOnUnresolvable = false ∧
      (∀ text ∈ stackedTree.texts, stackedResolver.Settles text) ∧
      stackedResolver.resolveAll stackedTree =
        .done [("alone", .int 1), ("mixed", .str "x-1-x, d and ${/e}")] := by
  have hne : stackedResolver.layers ≠ [] := List.cons_ne_nil _ _
  refine ⟨hne, rfl, rfl, stackedTree_settles, ?_⟩
  rw [layers_fill_all_at_once stackedResolver hne rfl rfl stackedTree stackedTree_settles]
  rfl

end LayeredConfig
