import LayeredConfig.Proofs.Json.RoundTrip
import LayeredConfig.Proofs.Tree.Assignment
import LayeredConfig.Proofs.Tree.Merge

/-!
# The exported tree

What is exported is not quite the tree that was compiled: fields about the run are merged
into it, under the top-level key `meta`.  That writes one entry of the tree and leaves the
others (`includeMeta_eq`), so every other path leads to the same node before and after
(`get?_of_includeMeta`).

An export can be read back if the tree is `Exportable`, which the fields do not change
(`Exportable.includeMeta`).  So can the text of a value inside of such a tree
(`Exportable.read?_of_get?`), for what is below a value without floats has none, and is not
as deep.
-/

namespace LayeredConfig

/-- A tree whose export can be read back: without floats, and with at most as many containers
open at once as the reader goes down. -/
structure Mapping.Exportable (tree : Mapping) : Prop where
  floatFree : ∀ leaf ∈ tree.leaves, leaf.2.kind ≠ .float
  shallow : (Value.map tree).depth ≤ 127

instance (tree : Mapping) : Decidable tree.Exportable :=
  decidable_of_iff ((∀ leaf ∈ tree.leaves, leaf.2.kind ≠ .float) ∧ (Value.map tree).depth ≤ 127)
    ⟨fun ⟨hfree, hdepth⟩ => ⟨hfree, hdepth⟩, fun h => ⟨h.floatFree, h.shallow⟩⟩

namespace Value

/-- No leaf of the value is a float. -/
def FloatFree (v : Value) : Prop :=
  ∀ leaf ∈ v.leavesFrom [], leaf.2.kind ≠ .float

/-- Where a walk starts does not change what sort the leaves are of. -/
theorem floatFree_iff {v : Value} (here : Path) :
    v.FloatFree ↔ ∀ leaf ∈ v.leavesFrom here, leaf.2.kind ≠ .float := by
  have hkinds : ∀ here, (∀ leaf ∈ v.leavesFrom here, leaf.2.kind ≠ .float) ↔
      ∀ w ∈ (v.leavesFrom here).map Prod.snd, w.kind ≠ .float := by
    intro here
    simp only [List.forall_mem_map]
  rw [FloatFree, hkinds [], hkinds here, leavesFrom_map_snd v [] here]

/-- A mapping is free of floats if its values are. -/
theorem floatFree_map {entries : Mapping} :
    (Value.map entries).FloatFree ↔ ∀ entry ∈ entries, entry.2.FloatFree := by
  constructor
  · intro h entry hentry
    refine (floatFree_iff [.key entry.1]).mpr fun leaf hleaf => h leaf ?_
    exact mem_leavesOfEntries.mpr ⟨entry, hentry, hleaf⟩
  · intro h leaf hleaf
    obtain ⟨entry, hentry, hleaf⟩ := mem_leavesOfEntries.mp hleaf
    exact (floatFree_iff _).mp (h entry hentry) leaf hleaf

/-- Below a value without floats there is none. -/
theorem FloatFree.child? {v child : Value} {s : Segment} (hv : v.FloatFree)
    (h : v.child? s = some child) : child.FloatFree := by
  rcases child?_cases h with ⟨entries, name, rfl, -, hentry⟩ | ⟨items, i, rfl, -, hitem⟩
  · exact floatFree_map.mp hv _ (Mapping.mem_of_lookup hentry)
  · refine (floatFree_iff [.index (0 + i)]).mpr fun leaf hleaf => hv leaf ?_
    exact mem_leavesOfItems.mpr ⟨i, child, hitem, hleaf⟩

/-- What is below a value is not as deep. -/
theorem depth_child?_le {v child : Value} {s : Segment} (h : v.child? s = some child) :
    child.depth ≤ v.depth := by
  rcases child?_cases h with ⟨entries, name, rfl, -, hentry⟩ | ⟨items, i, rfl, -, hitem⟩
  · exact Nat.le_succ_of_le (depth_le_depthOfEntries (Mapping.mem_of_lookup hentry))
  · exact Nat.le_succ_of_le (depth_le_depthOfItems (List.mem_of_getElem? hitem))

/-- A mapping is one container more than its values. -/
theorem depth_map_le {entries : Mapping} {n : Nat} :
    (Value.map entries).depth ≤ n + 1 ↔ ∀ entry ∈ entries, entry.2.depth ≤ n := by
  rw [depth, Nat.add_le_add_iff_right]
  constructor
  · exact fun h entry hentry => Nat.le_trans (depth_le_depthOfEntries hentry) h
  · intro h
    induction entries with
    | nil => exact Nat.zero_le n
    | cons entry rest ih =>
        rw [depthOfEntries]
        exact Nat.max_le.mpr ⟨h entry List.mem_cons_self,
          ih fun e he => h e (List.mem_cons_of_mem _ he)⟩

end Value

namespace Mapping

variable {tree exported : Mapping} {o : Overrides}

theorem exportable_iff : tree.Exportable ↔
    ∀ entry ∈ tree, entry.2.FloatFree ∧ entry.2.depth ≤ 126 := by
  constructor
  · intro h entry hentry
    exact ⟨Value.floatFree_map.mp h.floatFree entry hentry,
      Value.depth_map_le.mp h.shallow entry hentry⟩
  · intro h
    exact ⟨Value.floatFree_map.mpr fun entry hentry => (h entry hentry).1,
      Value.depth_map_le.mpr fun entry hentry => (h entry hentry).2⟩

/-! ## Fields about the run -/

/-- The field that an export records. -/
def overridesText (o : Overrides) : Value :=
  .str (" ".intercalate o.tokens)

/-- A single text is merged into a mapping by writing it. -/
theorem mergeEntries_text {strategy : MergeStrategy} {here : Path} {name text : String}
    {dest : Mapping} :
    mergeEntries strategy here [(name, .str text)] dest = .done (dest.insert name (.str text)) := by
  rw [mergeEntries]
  cases dest.lookup name <;> rfl

/-- **Fields about the run are written into one entry**, whose other fields stay. -/
theorem includeMeta_eq (h : tree.includeMeta (.ofOverrides o) = .done exported) :
    ∃ fields : Mapping, (fields = [] ∨ tree.lookup metaKey = some (.map fields)) ∧
      exported = tree.insert metaKey (.map (fields.insert overridesField (overridesText o))) := by
  rw [includeMeta, merge, mergeEntries] at h
  cases hold : tree.lookup metaKey with
  | none =>
      rw [hold] at h
      exact ⟨[], Or.inl rfl, (congrArg Edited.result h).symm⟩
  | some old =>
      rw [hold] at h
      cases old with
      | map fields =>
          have hmerge : mergeEntries .replace ([] ++ [.key metaKey]) (MetaFields.ofOverrides o)
              fields = .done (Mapping.insert fields overridesField (overridesText o)) :=
            mergeEntries_text
          simp only [mergeValue, hmerge] at h
          exact ⟨fields, Or.inr rfl, (congrArg Edited.result h).symm⟩
      | null => exact ⟨[], Or.inl rfl, (congrArg Edited.result h).symm⟩
      | _ => cases h

/-- **Every other path leads to the same node** in the compiled and in the exported tree. -/
theorem get?_of_includeMeta (h : tree.includeMeta (.ofOverrides o) = .done exported) {p : Path}
    (hp : p.head? ≠ some (.key metaKey)) : exported.get? p = tree.get? p := by
  obtain ⟨fields, -, rfl⟩ := includeMeta_eq h
  cases p with
  | nil => rfl
  | cons step rest =>
      cases step with
      | index i => rfl
      | key name =>
          have hname : name ≠ metaKey := fun heq => hp (heq ▸ rfl)
          rw [get?, get?, if_neg (by simp), if_neg (by simp), Value.at?, Value.at?,
            lookup_insert_of_ne hname]

/-- The exported tree is well formed. -/
theorem wellFormed_includeMeta (htree : (Value.map tree).WellFormed)
    (h : tree.includeMeta (.ofOverrides o) = .done exported) :
    (Value.map exported).WellFormed := by
  have hfields : (Value.map [(metaKey, .map (MetaFields.ofOverrides o))]).WellFormed := by
    simp [MetaFields.ofOverrides, Value.WellFormed, Value.WellFormedEntries]
  have hmerged : (Value.map (tree.includeMeta (.ofOverrides o)).result).WellFormed :=
    wellFormed_merge hfields htree
  rwa [h] at hmerged

/-- Writing a shallow value without floats keeps a tree exportable. -/
theorem Exportable.insert (htree : tree.Exportable) {name : String} {v : Value}
    (hfree : v.FloatFree) (hdepth : v.depth ≤ 126) : (tree.insert name v).Exportable := by
  refine exportable_iff.mpr fun entry hentry => ?_
  rcases mem_insert hentry with rfl | hold
  · exact ⟨hfree, hdepth⟩
  · exact exportable_iff.mp htree entry hold

/-- **The fields do not stand in the way** of reading the export back. -/
theorem Exportable.includeMeta (htree : tree.Exportable)
    (h : tree.includeMeta (.ofOverrides o) = .done exported) : exported.Exportable := by
  obtain ⟨fields, hfields, rfl⟩ := includeMeta_eq h
  -- the other fields stood in the tree, two containers down
  have hold : ∀ field ∈ fields, field.2.FloatFree ∧ field.2.depth ≤ 125 := by
    rcases hfields with rfl | hlookup
    · exact nofun
    · obtain ⟨hfree, hdepth⟩ := exportable_iff.mp htree _ (mem_of_lookup hlookup)
      exact fun field hfield =>
        ⟨Value.floatFree_map.mp hfree field hfield, Value.depth_map_le.mp hdepth field hfield⟩
  have hnew : ∀ field ∈ fields.insert overridesField (overridesText o),
      field.2.FloatFree ∧ field.2.depth ≤ 125 := by
    intro field hfield
    rcases mem_insert hfield with rfl | hfield
    · refine ⟨fun leaf hleaf => ?_, Nat.zero_le _⟩
      obtain rfl := List.mem_singleton.mp hleaf
      exact Kind.noConfusion
    · exact hold field hfield
  exact htree.insert (Value.floatFree_map.mpr fun field hfield => (hnew field hfield).1)
    (Value.depth_map_le.mpr fun field hfield => (hnew field hfield).2)

/-! ## Values inside of the tree -/

/-- A node of an exportable tree has no floats and is shallow. -/
theorem Exportable.get? (htree : tree.Exportable) {p : Path} {v : Value}
    (h : tree.get? p = some v) : v.FloatFree ∧ v.depth ≤ 127 := by
  have hroot : (Value.map tree).FloatFree ∧ (Value.map tree).depth ≤ 127 :=
    ⟨htree.floatFree, htree.shallow⟩
  refine Value.at?_keeps (P := fun v => v.FloatFree ∧ v.depth ≤ 127) (fun hv hchild => ?_) hroot
    (at?_of_get? h)
  exact ⟨hv.1.child? hchild, Nat.le_trans (Value.depth_child?_le hchild) hv.2⟩

/-- No node of it is a float. -/
theorem Exportable.kind_of_get? (htree : tree.Exportable) {p : Path} {v : Value}
    (h : tree.get? p = some v) : v.kind ≠ .float := by
  have hfree := (htree.get? h).1
  intro hfloat
  cases v with
  | float x => exact hfree ([], .float x) (List.mem_singleton.mpr rfl) rfl
  | _ => contradiction

/-- **The text of a node is read back** as the node. -/
theorem Exportable.read?_of_get? (htree : tree.Exportable) (hkeys : (Value.map tree).WellFormed)
    {p : Path} {v : Value} (h : tree.get? p = some v) : Json.read? v.indentedJson = some v := by
  obtain ⟨hfree, hdepth⟩ := htree.get? h
  exact Json.read?_of_spells (Json.spells_indented (hkeys.at? (at?_of_get? h)) hfree hdepth 0)

end Mapping

end LayeredConfig
