import LayeredConfig.Proofs.Tree.Overlay

/-!
# Merging a tree that fits

A tree fits another one if the other has a node wherever it has one, and a mapping wherever it
has one (`Value.Fits`).  Such a tree clashes nowhere with the other, so a merge of it finishes
(`Mapping.merge_of_fits`).

It brings no keys either.  As long as there are only mappings of the source along a path
(`Value.MapsAlong`), the result has there the keys that were there
(`Value.Overlaid.keysAt_of_fits`), and where the source has nothing, it has what was there
(`Value.Overlaid.at?_of_fits`).  What changes is what the source holds besides mappings.
-/

namespace LayeredConfig

namespace Value

/-- The other value has a node wherever this one has one, and a mapping wherever this one has
one. -/
def Fits (v old : Value) : Prop :=
  ∀ names w, v.at? (Path.ofKeys names) = some w →
    ∃ u, old.at? (Path.ofKeys names) = some u ∧ ∀ m, w = .map m → ∃ m', u = .map m'

/-- Along the path the value has only mappings, as far as it has anything. -/
def MapsAlong (v : Value) (q : Path) : Prop :=
  ∀ r, r <+: q → ∀ w, v.at? r = some w → ∃ m, w = .map m

variable {strategy : MergeStrategy} {v old u w below : Value} {source : Mapping}
  {s : Segment} {p q : Path} {name : String} {names : List String} {found : Kind}

/-! ## Along keys -/

/-- Nothing is under the keys of what is no mapping. -/
theorem at?_ofKeys_of_leaf (hleaf : ∀ m, v ≠ .map m) (h : v.at? (Path.ofKeys names) = some w) :
    names = [] ∧ w = v := by
  cases names with
  | nil => exact ⟨rfl, (Option.some.inj h).symm⟩
  | cons name names =>
      obtain ⟨m, hm⟩ := eq_map_of_at?_ofKeys h
      exact absurd hm (hleaf m)

/-- Nothing stands below a node that is no mapping. -/
theorem eq_of_at?_below (hp : v.at? p = some w) (hleaf : ∀ m, w ≠ .map m)
    (hbelow : p <+: Path.ofKeys names) (h : v.at? (Path.ofKeys names) = some u) :
    p = Path.ofKeys names ∧ u = w := by
  obtain ⟨rest, hrest⟩ := hbelow
  obtain ⟨above, below, -, -, rfl⟩ := List.map_eq_append_iff.mp hrest.symm
  rw [← hrest, at?_append, hp, Option.bind_some] at h
  obtain ⟨rfl, rfl⟩ := at?_ofKeys_of_leaf hleaf h
  exact ⟨(List.append_nil p).symm.trans hrest, rfl⟩

/-- On the way to a node under keys there is a mapping. -/
theorem exists_map_of_prefix (h : v.at? (Path.ofKeys names) = some w)
    (hway : p <+: Path.ofKeys names) (hne : p ≠ Path.ofKeys names) :
    ∃ m, v.at? p = some (.map m) := by
  obtain ⟨rest, hrest⟩ := hway
  obtain ⟨above, below, -, -, rfl⟩ := List.map_eq_append_iff.mp hrest.symm
  cases below with
  | nil =>
      rw [List.map_nil, List.append_nil] at hrest
      contradiction
  | cons name below =>
      rw [← hrest, at?_append, Option.bind_eq_some_iff] at h
      obtain ⟨u, hu, hbelow⟩ := h
      obtain ⟨m, rfl⟩ := eq_map_of_at?_ofKeys hbelow
      exact ⟨m, hu⟩

/-! ## One step -/

/-- What a mapping fits is a mapping. -/
theorem Fits.map (h : (Value.map source).Fits old) : ∃ dest, old = .map dest := by
  obtain ⟨u, hu, hmap⟩ := h [] _ rfl
  obtain rfl := Option.some.inj hu
  exact hmap source rfl

/-- What stands under a key fits what stands there. -/
theorem Fits.child (h : (Value.map source).Fits old) (hv : source.lookup name = some v) :
    ∃ u, old.child? (.key name) = some u ∧ v.Fits u := by
  have hbelow : ∀ names, (Value.map source).at? (Path.ofKeys (name :: names)) =
      v.at? (Path.ofKeys names) := by
    intro names
    rw [at?_ofKeys_cons, hv, Option.bind_some]
  obtain ⟨u, hu, -⟩ := h [name] v (hbelow [])
  obtain ⟨u', hchild, hend⟩ := exists_child_of_at? hu
  obtain rfl := Option.some.inj hend
  refine ⟨u', hchild, ?_⟩
  intro names w hw
  obtain ⟨u, hu, hmap⟩ := h (name :: names) w ((hbelow names).trans hw)
  obtain ⟨u'', hchild', hrest⟩ := exists_child_of_at? hu
  obtain rfl := Option.some.inj (hchild.symm.trans hchild')
  exact ⟨u, hrest, hmap⟩

/-- **What fits does not clash.** -/
theorem Fits.not_clashes (h : v.Fits old) : ¬ v.Clashes old names found := by
  rintro ⟨⟨entries, hmap⟩, ⟨u, hu, hfound⟩, hkind, -⟩
  obtain ⟨u', hu', hmaps⟩ := h names _ hmap
  obtain rfl := Option.some.inj (hu.symm.trans hu')
  obtain ⟨m, rfl⟩ := hmaps entries rfl
  exact hkind hfound.symm

theorem MapsAlong.map (h : v.MapsAlong q) : ∃ m, v = .map m :=
  h [] List.nil_prefix v rfl

theorem MapsAlong.child (h : v.MapsAlong (s :: q)) (hchild : v.child? s = some below) :
    below.MapsAlong q := by
  intro r hr w hw
  refine h (s :: r) (List.cons_prefix_cons.mpr ⟨rfl, hr⟩) w ?_
  rw [at?_cons, hchild]
  exact hw

/-- A step past a mapping that fits: where the source has nothing, there is what was there, and
else the one child is laid over the other, which it fits. -/
theorem Overlaid.child_of_fits (h : Overlaid strategy (.map source) old w)
    (hfits : (Value.map source).Fits old) (s : Segment) :
    ((Value.map source).child? s = none → w.child? s = old.child? s) ∧
    ∀ v, (Value.map source).child? s = some v → ∃ u u', old.child? s = some u ∧
      w.child? s = some u' ∧ Overlaid strategy v u u' ∧ v.Fits u := by
  obtain ⟨dest, rfl⟩ := hfits.map
  cases h with
  | scalar hscalar => contradiction
  | @mapping _ _ out keys kept added joined =>
      cases s with
      | index i => exact ⟨fun _ => rfl, nofun⟩
      | key name =>
          refine ⟨kept name, ?_⟩
          intro v hv
          obtain ⟨u, hu, hfit⟩ := hfits.child hv
          have hmem : name ∈ Mapping.keys dest :=
            List.mem_map_of_mem (Mapping.mem_of_lookup hu)
          obtain ⟨u', hu'⟩ := Mapping.exists_lookup_of_mem_keys
            (keys ▸ List.mem_append_left _ hmem)
          exact ⟨u, u', hu, hu', joined name v u u' hv hu hu', hfit⟩

/-! ## Along a path -/

/-- **Where a source that fits has nothing**, there is what was there. -/
theorem Overlaid.at?_of_fits (h : Overlaid strategy v old w) (hfits : v.Fits old)
    (hmaps : v.MapsAlong q) (hnone : v.at? q = none) : w.at? q = old.at? q := by
  induction q generalizing v old w with
  | nil => contradiction
  | cons s q ih =>
      obtain ⟨source, rfl⟩ := hmaps.map
      obtain ⟨hkept, hjoined⟩ := h.child_of_fits hfits s
      rw [at?_cons] at hnone ⊢
      rw [at?_cons]
      cases hchild : (Value.map source).child? s with
      | none => rw [hkept hchild]
      | some below =>
          obtain ⟨u, u', hu, hu', hover, hfit⟩ := hjoined below hchild
          rw [hchild] at hnone
          rw [hu, hu']
          exact ih hover hfit (hmaps.child hchild) hnone

/-- The keys at the end of a path are those at the end of what is left of it below a step. -/
theorem keysAt_cons (v : Value) (s : Segment) (q : Path) :
    v.keysAt (s :: q) = ((v.child? s).getD .null).keysAt q := by
  rw [keysAt, getD_at?_cons]
  rfl

/-- **Along the mappings of a source that fits** there are the keys that were there. -/
theorem Overlaid.keysAt_of_fits (h : Overlaid strategy v old w) (hfits : v.Fits old)
    (hmaps : v.MapsAlong q) : w.keysAt q = old.keysAt q := by
  induction q generalizing v old w with
  | nil =>
      obtain ⟨source, rfl⟩ := hmaps.map
      obtain ⟨dest, rfl⟩ := hfits.map
      cases h with
      | scalar hscalar => contradiction
      | @mapping _ _ out keys kept added joined =>
          have hnone : (Mapping.keys source).filter (· ∉ Mapping.keys dest) = [] := by
            rw [List.filter_eq_nil_iff]
            intro name hname
            obtain ⟨v, hv⟩ := Mapping.exists_lookup_of_mem_keys hname
            obtain ⟨u, hu, -⟩ := hfits.child hv
            have hmem : name ∈ Mapping.keys dest :=
              List.mem_map_of_mem (Mapping.mem_of_lookup hu)
            simpa using hmem
          rw [hnone, List.append_nil] at keys
          exact keys
  | cons s q ih =>
      obtain ⟨source, rfl⟩ := hmaps.map
      obtain ⟨hkept, hjoined⟩ := h.child_of_fits hfits s
      rw [keysAt_cons, keysAt_cons]
      cases hchild : (Value.map source).child? s with
      | none => rw [hkept hchild]
      | some below =>
          obtain ⟨u, u', hu, hu', hover, hfit⟩ := hjoined below hchild
          rw [hu, hu']
          exact ih hover hfit (hmaps.child hchild)

end Value

/-- **A merge of a tree that fits** finishes. -/
theorem Mapping.merge_of_fits {source dest : Mapping} (strategy : MergeStrategy)
    (hsource : (Value.map source).WellFormed) (hfits : (Value.map source).Fits (.map dest)) :
    ∃ out, source.merge strategy dest = .done out ∧
      (Value.map source).Overlaid strategy (.map dest) (.map out) := by
  cases hfailure : (source.merge strategy dest).failure with
  | some c =>
      obtain ⟨name, names, -, hclash, -⟩ := mergeEntries_stop hsource hfailure
      exact absurd hclash hfits.not_clashes
  | none =>
      have hdone := Edited.eq_done hfailure
      exact ⟨_, hdone, overlaid_of_merge hsource hdone⟩

end LayeredConfig
