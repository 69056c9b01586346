import LayeredConfig.Export
import LayeredConfig.Proofs.Tree.Edits
import LayeredConfig.Proofs.Tree.Merge

/-!
# Replacing again

Overrides are merged into a page, and fields about the run into an export, by a merge that
replaces sequences.  Such a merge may be repeated: the second time it changes nothing, and it
meets no conflict that the first one did not meet.

What the second merge finds is what the first one has left, so the one thing to show is that
a value is *settled* in what a merge of it leaves (`SettledIn`).  A scalar or a sequence is
settled in itself.  For a mapping it is a matter of each of its keys
(`mergeEntries_of_settled`), and under a key three things may have happened: the value was
merged into one that was there, it came in as it is, or its whole mapping took the place of a
null.  They are one thing, because under replacement a null gives way to every value
(`mergeValue_null`): where nothing was, the value was merged into a null.
-/

namespace LayeredConfig

variable {strategy : MergeStrategy} {here : Path} {source dest out : Mapping} {v old w : Value}

/-- Merged into `w` the value `v` changes nothing, wherever the two stand. -/
def Value.SettledIn (strategy : MergeStrategy) (v w : Value) : Prop :=
  ∀ here, mergeValue strategy here v w = .done w

/-- A mapping changes nothing where each of its values is settled under its key. -/
theorem mergeEntries_of_settled
    (h : ∀ entry ∈ source, ∃ w, dest.lookup entry.1 = some w ∧
      entry.2.SettledIn strategy w) :
    mergeEntries strategy here source dest = .done dest := by
  induction source with
  | nil => rw [mergeEntries]
  | cons entry rest ih =>
      obtain ⟨w, hw, hsettled⟩ := h entry List.mem_cons_self
      have hrest := ih fun other hother => h other (List.mem_cons_of_mem _ hother)
      rw [mergeEntries]
      simp only [hw]
      rw [hsettled, Edited.done_map, Mapping.insert_of_lookup hw, Edited.done_andThen, hrest]

/-- A mapping is settled where each of its values is settled under its key. -/
theorem Value.settledIn_map
    (h : ∀ entry ∈ source, ∃ w, dest.lookup entry.1 = some w ∧
      entry.2.SettledIn strategy w) :
    (Value.map source).SettledIn strategy (.map dest) := by
  intro here
  rw [mergeValue, mergeEntries_of_settled h, Edited.done_map]

/-! ## One value -/

/-- Under replacement a null gives way to every value. -/
theorem mergeValue_null (here : Path) (v : Value) :
    mergeValue .replace here v .null = .done v := by
  cases v <;> rfl

/-- **What replacement leaves under a key** of the source is the source's value, merged into
what was there, where nothing counts as a null. -/
theorem lookup_mergeEntries_replace (hnodup : source.keys.Nodup)
    (h : mergeEntries .replace here source dest = .done out) {entry : String × Value}
    (hentry : entry ∈ source) :
    ∃ w, out.lookup entry.1 = some w ∧
      mergeValue .replace (here ++ [.key entry.1]) entry.2
        ((dest.lookup entry.1).getD .null) = .done w := by
  obtain ⟨-, hadded, hjoined⟩ := lookup_mergeEntries hnodup h entry.1
  have hv : source.lookup entry.1 = some entry.2 := Mapping.lookup_of_mem hnodup hentry
  cases hold : dest.lookup entry.1 with
  | none => exact ⟨entry.2, hadded _ hv hold, mergeValue_null _ _⟩
  | some old =>
      obtain ⟨merged, hmerged, hout⟩ := hjoined _ old hv hold
      exact ⟨merged, hout, hmerged⟩

/-- **A value is settled in what replacement makes of it**, whatever it was merged into. -/
theorem Value.settledIn_of_mergeValue (hv : v.WellFormed)
    (h : mergeValue .replace here v old = .done w) : v.SettledIn .replace w := by
  induction v using map_induction generalizing here old w with
  | leaf v hleaf =>
      rw [mergeValue_of_not_map hleaf, joined_replace] at h
      obtain rfl := Edited.done_inj h
      intro here
      rw [mergeValue_of_not_map hleaf, joined_replace]
  | map source ih =>
      obtain ⟨hnodup, hvalues⟩ := wellFormed_map.mp hv
      rcases mergeValue_map h with ⟨dest, out, rfl, hmerge, rfl⟩ | ⟨rfl, rfl⟩
      · refine settledIn_map fun entry hentry => ?_
        obtain ⟨w, hw, hmerged⟩ := lookup_mergeEntries_replace hnodup hmerge hentry
        exact ⟨w, hw, ih entry hentry (hvalues entry hentry) hmerged⟩
      · -- the mapping took the place of a null, so it meets itself
        refine settledIn_map fun entry hentry => ?_
        exact ⟨entry.2, Mapping.lookup_of_mem hnodup hentry,
          ih entry hentry (hvalues entry hentry) (mergeValue_null [] entry.2)⟩

/-! ## Whole trees -/

namespace Mapping

/-- **A merge that replaces settles**: a second one changes nothing. -/
theorem merge_replace_again (hsource : (Value.map source).WellFormed)
    (h : source.merge .replace dest = .done out) : source.merge .replace out = .done out := by
  obtain ⟨hnodup, hvalues⟩ := Value.wellFormed_map.mp hsource
  refine mergeEntries_of_settled fun entry hentry => ?_
  obtain ⟨w, hw, hmerged⟩ := lookup_mergeEntries_replace hnodup h hentry
  exact ⟨w, hw, Value.settledIn_of_mergeValue (hvalues entry hentry) hmerged⟩

/-- A scalar or a sequence of the source is what the result holds. -/
theorem get?_merge_replace (hsource : (Value.map source).WellFormed)
    (h : source.merge .replace dest = .done out) {names : List String}
    (hv : source.get? (Path.ofKeys names) = some v) (hleaf : ∀ entries, v ≠ .map entries) :
    out.get? (Path.ofKeys names) = some v := by
  rw [get?_merge hsource h hv hleaf]
  cases dest.get? (Path.ofKeys names) with
  | none => rfl
  | some old => exact congrArg some (Value.joined_replace v old)

/-- **Replacing again changes nothing.**  A source that was merged in with replacement can be
merged in again, and the tree stays as it is, in the order of its keys too.  The result holds
every scalar and every sequence of the source as it stands there.  So overrides that have been
applied may be applied again, and so may fields about a run be stamped on a tree. -/
theorem replacing_again_changes_nothing (hsource : (Value.map source).WellFormed)
    (h : source.merge .replace dest = .done out) :
    source.merge .replace out = .done out ∧
      (∀ names v, source.get? (Path.ofKeys names) = some v → (∀ entries, v ≠ .map entries) →
        out.get? (Path.ofKeys names) = some v) ∧
      (∀ o : Overrides, o.nested = source →
        o.apply dest = .done out ∧ o.apply out = .done out) ∧
      ∀ fields : MetaFields, source = [(metaKey, .map fields)] →
        dest.includeMeta fields = .done out ∧ out.includeMeta fields = .done out := by
  have hagain := merge_replace_again hsource h
  refine ⟨hagain, fun names v hv hleaf => get?_merge_replace hsource h hv hleaf, ?_, ?_⟩
  · rintro o rfl
    exact ⟨h, hagain⟩
  · rintro fields rfl
    exact ⟨h, hagain⟩

/-- Fields about a run: a text, a list, and a mapping. -/
def runFields : MetaFields :=
  [("overrides", .str "port=80"), ("tags", .seq [.str "new"]), ("host", .map [("cores", .int 4)])]

/-- A tree that was stamped before, when nothing was known of the host. -/
def stampedTree : Mapping :=
  [("meta", .map [("host", .null), ("tags", .seq [.str "old", .null]), ("by", .str "ant")]),
    ("port", .int 80)]

/-- The list is replaced, the mapping takes the place of the null, and a second stamp leaves
all of it. -/
theorem stampedTree_is_stamped_again :
    (Value.map [("meta", .map runFields)]).WellFormed ∧
      ∃ out, Mapping.merge .replace [("meta", .map runFields)] stampedTree = .done out ∧
        stampedTree.includeMeta runFields = .done out ∧
        out.includeMeta runFields = .done out ∧
        out = [("meta", .map [("host", .map [("cores", .int 4)]), ("tags", .seq [.str "new"]),
          ("by", .str "ant"), ("overrides", .str "port=80")]), ("port", .int 80)] ∧
        out.get? (Path.ofKeys ["meta", "tags"]) = some (.seq [.str "new"]) := by
  have hsource : (Value.map [("meta", .map runFields)]).WellFormed := by
    simp [runFields, Value.WellFormed, Value.WellFormedEntries, Value.WellFormedItems]
  have hmerge := Edited.eq_done
    (r := Mapping.merge .replace [("meta", .map runFields)] stampedTree) rfl
  obtain ⟨-, hleaf, -, hmeta⟩ := replacing_again_changes_nothing hsource hmerge
  obtain ⟨hfirst, hsecond⟩ := hmeta runFields rfl
  have hlist : ∀ entries, Value.seq [.str "new"] ≠ .map entries := by simp
  exact ⟨hsource, _, hmerge, hfirst, hsecond, rfl, hleaf ["meta", "tags"] _ rfl hlist⟩

end Mapping

end LayeredConfig
