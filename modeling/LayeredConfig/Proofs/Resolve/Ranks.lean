import LayeredConfig.Proofs.Resolve.Ending
import LayeredConfig.Proofs.Resolve.Flat

/-!
# References that the trail does not cut

The trail cuts cycles, but it is a bound on the depth and a comparison of texts; so it
might cut references that are only deep, or that reach one path on two branches.  It
does not if the references of a layer can be ranked: every path mentioned in the value
of a path has a smaller rank, and no rank exceeds `trailLimit`.

The invariant ties the trail to the rank.  A text below a trail mentions paths of rank
below some `k` only; the paths on the trail have rank `k` or more, so none of them is
mentioned again; and `k` free places are left, one of which the innermost value can do
without, since a value of rank 0 mentions nothing.

* `Ranking.resolveText_eq`: under the invariant, resolution is what it would be
  without any trail;
* `Layer.Leads.resolveText_eq`: a chain of placeholders becomes the value at its end;
* `ranked_references_resolve`: both, for trees.
-/

namespace LayeredConfig

open Placeholder

/-- Every path may be expanded, whatever is under expansion. -/
def Trail.admitsAll : Trail → String → Bool :=
  fun _ _ => true

/-- The paths of the placeholders in a text. -/
def Placeholder.paths (text : String) : List String :=
  (keys text).map pathText

/-- The paths of the placeholders in the texts of a value. -/
def Value.references (v : Value) : List String :=
  v.texts.flatMap paths

/-- The paths of the placeholders in a tree and in a layer. -/
def mentionedPaths (layer : Layer) (tree : Mapping) : List String :=
  (Value.map tree).references ++ (Value.map layer.data).references

/-- A ranking of the paths that a tree and a layer mention: the value of a path mentions
paths of smaller rank only, and the trail has room for every rank. -/
structure Ranking (layer : Layer) (tree : Mapping) (rank : String → Nat) : Prop where
  bounded : ∀ path ∈ mentionedPaths layer tree, rank path ≤ trailLimit
  descends : ∀ path ∈ mentionedPaths layer tree, ∀ v, layer.find? path = some v →
    ∀ inner ∈ v.references, rank inner < rank path

/-- The paths in one text of a value are among its references. -/
theorem Value.paths_subset_references {v : Value} {text : String} (h : text ∈ v.texts) :
    paths text ⊆ v.references :=
  fun _ hpath => List.mem_flatMap.mpr ⟨text, h, hpath⟩

/-- A text without placeholders mentions no paths. -/
theorem Placeholder.paths_of_contains_eq_false {text : String} (h : contains text = false) :
    paths text = [] := by
  have hkeys : keys text = [] := by
    by_contra hne
    rw [contains_iff.mpr hne] at h
    contradiction
  rw [paths, hkeys, List.map_nil]

/-! ## Ranked references -/

section Ranked

variable {tree : Mapping} {rank : String → Nat} {r : Resolver} {pass : Pass}

/-- What a pass finds for a mentioned path has no nesting, and mentions paths of smaller
rank only. -/
theorem Ranking.of_find? (hrank : Ranking pass.layer tree rank)
    (hflat : ∀ text ∈ pass.layer.data.texts, nestedKeys text = []) {key : String}
    (hkey : Inert key.toList) (hpath : pathText key ∈ mentionedPaths pass.layer tree)
    {found : Value} (hfound : pass.find? key = some found) {text : String}
    (htext : text ∈ found.texts) :
    nestedKeys text = [] ∧ ∀ inner ∈ paths text,
      inner ∈ mentionedPaths pass.layer tree ∧ rank inner < rank (pathText key) := by
  rcases Pass.find?_cases hfound with hlayer | ⟨fallback, hsplit, rfl⟩
  · have hdata := (Layer.find?_eq_some_iff.mp hlayer).1
    have hmem : text ∈ pass.layer.data.texts := Mapping.texts_subset_of_find? hdata htext
    refine ⟨hflat text hmem, fun inner hinner => ⟨?_, ?_⟩⟩
    · exact List.mem_append_right _ (Value.paths_subset_references hmem hinner)
    · exact hrank.descends _ hpath found hlayer inner
        (Value.paths_subset_references htext hinner)
  · obtain rfl : text = fallback := by simpa using htext
    have hplain : contains text = false := contains_fallback hkey hsplit
    refine ⟨nestedKeys_of_contains_eq_false hplain, fun inner hinner => ?_⟩
    rw [paths_of_contains_eq_false hplain] at hinner
    contradiction

/-- **The trail cuts nothing that is ranked.**  A text that mentions paths of rank
below `k` only, below a trail of paths of rank `k` or more that leaves room for them,
resolves to what it would without a trail.  The induction is on `k`. -/
theorem Ranking.resolveText_eq (hrank : Ranking pass.layer tree rank)
    (hflat : ∀ text ∈ pass.layer.data.texts, nestedKeys text = [])
    (hkeys : r.options.keyResolution = false) {k depth depth' : Nat} {trail : Trail}
    {text : String} (htext : nestedKeys text = [])
    (hbelow : ∀ path ∈ paths text, path ∈ mentionedPaths pass.layer tree ∧ rank path < k)
    (htrail : ∀ path ∈ trail, k ≤ rank path) (hroom : trail.length + k ≤ trailLimit + 1)
    (hdepth : k < depth) (hdepth' : k < depth') :
    resolveText Trail.admits r depth trail pass text =
      resolveText Trail.admitsAll r depth' trail pass text := by
  induction k using Nat.strongRecOn generalizing trail text depth depth' with
  | ind k ih =>
      obtain ⟨depth, rfl⟩ := Nat.exists_eq_add_one_of_ne_zero (Nat.ne_zero_of_lt hdepth)
      obtain ⟨depth', rfl⟩ := Nat.exists_eq_add_one_of_ne_zero (Nat.ne_zero_of_lt hdepth')
      rw [resolveText, resolveText, Resolver.resolveLevel_of_flat htext,
        Resolver.resolveLevel_of_flat htext]
      refine fillKeys_congr (fun key hmem found hfound => ?_) _
      have hkey : key ∈ keys text := List.mem_eraseDups.mp hmem
      obtain ⟨hpath, hlt⟩ := hbelow (pathText key) (List.mem_map_of_mem hkey)
      have hinner : ∀ text' ∈ found.texts, nestedKeys text' = [] ∧ ∀ inner ∈ paths text',
          inner ∈ mentionedPaths pass.layer tree ∧ rank inner < rank (pathText key) :=
        fun text' => hrank.of_find? hflat (inert_of_mem_keys hkey) hpath hfound
      by_cases hfree : trail.length < trailLimit
      · have hnew : pathText key ∉ trail := fun hold => by
          have := htrail _ hold
          omega
        have hadmits : trail.admits (pathText key) = true := Trail.admits_iff.mpr ⟨hfree, hnew⟩
        refine Resolver.expand_congr_texts hkeys hadmits rfl fun text' htext' _ => ?_
        obtain ⟨hflat', hbelow'⟩ := hinner text' htext'
        refine ih (rank (pathText key)) hlt hflat' hbelow' (fun path hold => ?_) ?_
          (by omega) (by omega)
        · rcases List.mem_append.mp hold with hold | hlast
          · exact Nat.le_of_lt (Nat.lt_of_lt_of_le hlt (htrail path hold))
          · exact Nat.le_of_eq (congrArg rank (List.mem_singleton.mp hlast).symm)
        · rw [List.length_append, List.length_singleton]
          omega
      · -- the trail is full, so the path has rank 0 and its value mentions nothing
        have hplain : ∀ text' ∈ found.texts, contains text' = false := by
          intro text' htext'
          by_contra hcontains
          have hne : keys text' ≠ [] := contains_iff.mp (by simpa using hcontains)
          obtain ⟨key', hkey'⟩ := List.exists_mem_of_ne_nil _ hne
          have := ((hinner text' htext').2 (pathText key') (List.mem_map_of_mem hkey')).2
          omega
        rw [Resolver.expand_of_plain hkeys hplain, Resolver.expand_of_plain hkeys hplain]

end Ranked

/-! ## Chains of placeholders -/

/-- The data of a layer lead from a key through a list of further keys to a value: each
path holds the placeholder of the next key and nothing else, and the last one holds the
value, which has no placeholders. -/
inductive Layer.Leads (layer : Layer) : String → List String → Value → Prop
  | last {key : String} {v : Value} (hkey : Inert key.toList)
      (hfind : layer.find? (pathText key) = some v)
      (hplain : ∀ text ∈ v.texts, contains text = false) : Leads layer key [] v
  | step {key next : String} {rest : List String} {v : Value} (hkey : Inert key.toList)
      (hfind : layer.find? (pathText key) = some (.str (wrap next)))
      (hrest : Leads layer next rest v) : Leads layer key (next :: rest) v

/-- The key at the front of a chain is inert. -/
theorem Layer.Leads.inert {layer : Layer} {key : String} {rest : List String} {v : Value}
    (h : layer.Leads key rest v) : Inert key.toList := by
  cases h <;> assumption

/-- **A chain becomes the value at its end.**  The trail must leave room for all of its
keys but the last, whose value needs no expansion. -/
theorem Layer.Leads.resolveText_eq {r : Resolver} {pass : Pass}
    (hnested : r.options.nestedResolution = true) (hkeys : r.options.keyResolution = false)
    {key : String} {rest : List String} {v : Value} (h : pass.layer.Leads key rest v)
    {trail : Trail} {depth : Nat} (hnew : ∀ path ∈ (key :: rest).map pathText, path ∉ trail)
    (hnodup : ((key :: rest).map pathText).Nodup)
    (hroom : trail.length + rest.length ≤ trailLimit) (hdepth : rest.length < depth) :
    resolveText Trail.admits r depth trail pass (wrap key) = .ok v := by
  induction h generalizing trail depth with
  | last hkey hfind hplain =>
      obtain ⟨depth, rfl⟩ := Nat.exists_eq_add_one_of_ne_zero (Nat.ne_zero_of_lt hdepth)
      rw [resolveText, Resolver.resolveLevel_wrap hkey (Pass.find?_of_layer hfind),
        Resolver.expand_of_plain hkeys hplain]
  | @step key next rest v hkey hfind hrest ih =>
      obtain ⟨depth, rfl⟩ := Nat.exists_eq_add_one_of_ne_zero (Nat.ne_zero_of_lt hdepth)
      rw [List.length_cons] at hroom
      rw [List.map_cons, List.nodup_cons] at hnodup
      have hadmits : trail.admits (pathText key) = true :=
        Trail.admits_iff.mpr ⟨by omega, hnew _ (by simp)⟩
      rw [resolveText, Resolver.resolveLevel_wrap hkey (Pass.find?_of_layer hfind),
        Resolver.expand_str hadmits, hnested, contains_wrap hrest.inert, Bool.and_self, if_pos rfl]
      refine ih (fun path hpath hold => ?_) hnodup.2 ?_ ?_
      · rcases List.mem_append.mp hold with hold | hlast
        · exact hnew path (List.mem_cons_of_mem _ hpath) hold
        · exact hnodup.1 (List.mem_singleton.mp hlast ▸ hpath)
      · rw [List.length_append, List.length_singleton]
        omega
      · exact Nat.lt_of_succ_lt_succ hdepth

/-- **Ranked references are resolved in full.**  If nothing is nested and the references
can be ranked, a tree is resolved against one layer to what it would be with neither a
bound on the trail nor a look at it, at any depth that the ranks fit in.  A chain of
placeholders, at most one more than the trail has room for, becomes the value at its
end, of whatever kind; in a tree it does so unless an unknown placeholder stopped the
walk before. -/
theorem ranked_references_resolve (strict : Bool) (layer : Layer) (tree : Mapping) :
    let r : Resolver := ⟨[layer], ⟨true, strict, false⟩⟩
    ((∀ text ∈ tree.texts ++ layer.data.texts, nestedKeys text = []) →
      (∃ rank, Ranking layer tree rank) →
        (r.resolveAll tree).failure ≠ some .endless ∧
        ∀ depth, trailLimit + 2 ≤ depth →
          r.resolveAllBy (resolveText Trail.admitsAll r depth) tree = r.resolveAll tree) ∧
    ∀ key rest v, layer.Leads key rest v → ((key :: rest).map pathText).Nodup →
      rest.length ≤ trailLimit →
        r.resolveScalar (wrap key) = .ok v ∧
        ∀ path, tree.get? path = some (.str (wrap key)) →
          Mapping.get? (r.resolveAll tree).result path = some v ∨
            strict = true ∧
              (∃ placeholder, (r.resolveAll tree).failure = some (.missing placeholder)) ∧
              Mapping.get? (r.resolveAll tree).result path = some (.str (wrap key)) := by
  intro r
  have hr : r.passes = [⟨layer, true⟩] := rfl
  refine ⟨fun hflat hranked => ⟨fun hendless => ?_, fun depth hdepth => ?_⟩,
    fun key rest v hchain hnodup hlength => ?_⟩
  · obtain ⟨-, placeholder, hmissing⟩ := Resolver.resolveAll_failure hr hendless
    contradiction
  · obtain ⟨rank, hrank⟩ := hranked
    rw [Resolver.resolveAll, Resolver.resolveAllBy_singleton hr rfl,
      Resolver.resolveAllBy_singleton hr rfl]
    refine Mapping.resolveEntries_congr_texts fun text htext _ => Eq.symm ?_
    have hbelow : ∀ path ∈ paths text,
        path ∈ mentionedPaths layer tree ∧ rank path < trailLimit + 1 := by
      intro path hpath
      have hmem : path ∈ mentionedPaths layer tree :=
        List.mem_append_left _ (Value.paths_subset_references htext hpath)
      exact ⟨hmem, Nat.lt_succ_of_le (hrank.bounded path hmem)⟩
    exact Ranking.resolveText_eq hrank
      (fun text htext => hflat text (List.mem_append_right _ htext)) rfl
      (hflat text (List.mem_append_left _ htext)) hbelow (by simp) (by simp) (by decide) hdepth
  · have hvalue : resolveText Trail.admits r reentryLimit [] ⟨layer, true⟩ (wrap key) = .ok v :=
      hchain.resolveText_eq rfl rfl (by simp) hnodup
        (by simpa using hlength) (Nat.lt_of_le_of_lt hlength (by decide))
    refine ⟨?_, fun path hleaf => ?_⟩
    · rw [Resolver.resolveScalar, Resolver.resolveScalarBy, hr, throughPasses_singleton, hvalue]
    · have hsettled : (Value.str (wrap key)).resolveLeaves
          (resolveText Trail.admits r reentryLimit [] ⟨layer, true⟩) .done = .done v := by
        rw [Value.resolveLeaves, if_pos (contains_wrap hchain.inert), hvalue]
      have hwalk := Mapping.get?_resolveEntries hleaf hsettled
      rw [← Resolver.resolveAllBy_singleton hr rfl, ← Resolver.resolveAll] at hwalk
      refine hwalk.imp_right fun hstopped => ?_
      obtain ⟨hfail, hleft⟩ := hstopped
      obtain ⟨e, he⟩ := Option.ne_none_iff_exists'.mp hfail
      obtain ⟨hstrict, placeholder, rfl⟩ := Resolver.resolveAll_failure hr he
      exact ⟨hstrict, ⟨placeholder, he⟩, hleft⟩

/-- A path that is reached on two branches, once inside a mapping. -/
def diamondLayer : Layer :=
  ⟨"diamond", [("a", .str "${/b} of ${/c/y}"), ("b", .str "${/d}"),
    ("c", .map [("y", .str "${/d}")]), ("d", .int 5)]⟩

/-- A tree that refers to the top of the diamond and to one of its sides. -/
def diamondTree : Mapping :=
  [("top", .str "${/a}"), ("side", .str "${/b}"), ("sides", .str "${/c}")]

/-- The height of a path in the diamond. -/
def diamondRank (path : String) : Nat :=
  if path = "/a" then 2 else if path = "/d" then 0 else 1

/-- The diamond is ranked by height. -/
theorem ranking_diamond : Ranking diamondLayer diamondTree diamondRank := by
  have hpaths : mentionedPaths diamondLayer diamondTree =
      ["/a", "/b", "/c", "/b", "/c/y", "/d", "/d"] := by decide
  refine ⟨?_, ?_⟩
  · rw [hpaths]
    decide
  · have hvalues : ∀ path ∈ mentionedPaths diamondLayer diamondTree,
        ∀ inner ∈ (diamondLayer.find? path).elim [] Value.references,
          diamondRank inner < diamondRank path := by
      rw [hpaths]
      decide
    intro path hpath v hv inner hinner
    refine hvalues path hpath inner ?_
    rw [hv]
    exact hinner

/-- The diamond resolves in full, and its side leads to the number at the bottom. -/
theorem diamond_references_resolve :
    let r : Resolver := ⟨[diamondLayer], ⟨true, true, false⟩⟩
    Ranking diamondLayer diamondTree diamondRank ∧
      diamondLayer.Leads "/b" ["/d"] (.int 5) ∧
      r.resolveAllBy (resolveText Trail.admitsAll r 12) diamondTree =
        r.resolveAll diamondTree ∧
      r.resolveScalar (wrap "/b") = .ok (.int 5) := by
  intro r
  have hflat : ∀ text ∈ diamondTree.texts ++ diamondLayer.data.texts, nestedKeys text = [] := by
    decide
  have hlast : diamondLayer.Leads "/d" [] (.int 5) :=
    .last (by decide) (by rfl) (by decide)
  have hchain : diamondLayer.Leads "/b" ["/d"] (.int 5) :=
    .step (by decide) (by rfl) hlast
  have hresolve := ranked_references_resolve true diamondLayer diamondTree
  exact ⟨ranking_diamond, hchain,
    (hresolve.1 hflat ⟨diamondRank, ranking_diamond⟩).2 12 (by decide),
    (hresolve.2 "/b" ["/d"] (.int 5) hchain (by decide) (by decide)).1⟩

end LayeredConfig
