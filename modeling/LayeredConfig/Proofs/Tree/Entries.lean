import LayeredConfig.Proofs.Tree.Texts

/-!
# Entries of mappings

How one mapping is read and written, and what makes a tree well formed: in no mapping
of it is a key held twice.  The keys of a well formed mapping say where its entries are,
so an entry that stands in it is the one that a look-up finds.
-/

namespace LayeredConfig

namespace Mapping

variable {m : Mapping} {name other : String} {v w : Value}

/-! ## Looking up -/

/-- A key that no entry has is not found. -/
theorem lookup_of_not_mem_keys (h : name ∉ m.keys) : m.lookup name = none := by
  refine List.lookup_eq_none_iff.mpr fun entry hentry => ?_
  refine bne_iff_ne.mpr fun heq => h (List.mem_map.mpr ⟨entry, hentry, heq.symm⟩)

/-- A key that an entry has is found. -/
theorem exists_lookup_of_mem_keys (h : name ∈ m.keys) : ∃ v, m.lookup name = some v := by
  refine Option.ne_none_iff_exists'.mp fun hnone => ?_
  obtain ⟨entry, hentry, rfl⟩ := List.mem_map.mp h
  exact bne_iff_ne.mp (List.lookup_eq_none_iff.mp hnone entry hentry) rfl

/-- What is found stands under the key. -/
theorem mem_of_lookup (h : m.lookup name = some v) : (name, v) ∈ m := by
  obtain ⟨before, behind, rfl, -⟩ := List.lookup_eq_some_iff.mp h
  simp

/-- Where no key is held twice, every entry is found under its key. -/
theorem lookup_of_mem (hnodup : m.keys.Nodup) (h : (name, v) ∈ m) : m.lookup name = some v := by
  induction m with
  | nil => contradiction
  | cons entry rest ih =>
      obtain ⟨hfresh, hrest⟩ := List.nodup_cons.mp hnodup
      rcases List.mem_cons.mp h with rfl | h
      · exact List.lookup_cons_self
      · have hne : name ≠ entry.1 := by
          rintro rfl
          exact hfresh (List.mem_map.mpr ⟨_, h, rfl⟩)
        rw [List.lookup_cons, beq_false_of_ne hne]
        exact ih hrest h

/-- Where no key is held twice, the key of an entry is not held in front of it. -/
theorem not_mem_keys_of_nodup {before behind : Mapping} {entry : String × Value}
    (h : (Mapping.keys (before ++ entry :: behind)).Nodup) : entry.1 ∉ before.keys := by
  intro hmem
  rw [keys, List.map_append] at h
  exact (List.nodup_append.mp h).2.2 _ hmem _ List.mem_cons_self rfl

/-- Two mappings with the same keys in the same order, none held twice, are equal if they hold
the same under each key. -/
theorem eq_of_keys_of_lookup {m' : Mapping} (hnodup : m.keys.Nodup) (hkeys : m.keys = m'.keys)
    (h : ∀ name ∈ m.keys, m.lookup name = m'.lookup name) : m = m' := by
  induction m generalizing m' with
  | nil => exact (List.map_eq_nil_iff.mp hkeys.symm).symm
  | cons entry rest ih =>
      obtain ⟨key, v⟩ := entry
      cases m' with
      | nil => contradiction
      | cons entry' rest' =>
          obtain ⟨key', v'⟩ := entry'
          obtain ⟨rfl, hkeys'⟩ := List.cons.inj hkeys
          obtain ⟨hfresh, hrest⟩ := List.nodup_cons.mp hnodup
          have hhead := h key List.mem_cons_self
          rw [List.lookup_cons_self, List.lookup_cons_self] at hhead
          have htail : ∀ name ∈ keys rest, List.lookup name rest = List.lookup name rest' := by
            intro name hname
            have hne : name ≠ key := fun heq => hfresh (heq ▸ hname)
            have hlookup := h name (List.mem_cons_of_mem _ hname)
            rwa [List.lookup_cons, List.lookup_cons, beq_false_of_ne hne] at hlookup
          rw [Option.some.inj hhead, ih hrest hkeys' htail]

/-! ## Writing one entry -/

/-- A key is written behind the entries that do not have it. -/
theorem insert_append {before : Mapping} (h : name ∉ before.keys) (m : Mapping) (v : Value) :
    Mapping.insert (before ++ m) name v = before ++ m.insert name v := by
  induction before with
  | nil => rfl
  | cons entry rest ih =>
      have hne : name ≠ entry.1 := List.ne_of_not_mem_cons h
      have hrest : name ∉ Mapping.keys rest := List.not_mem_of_not_mem_cons h
      rw [List.cons_append, Mapping.insert, if_neg fun heq => hne heq.symm, ih hrest,
        List.cons_append]

/-- A key that no entry has is written behind the entries. -/
theorem insert_of_not_mem_keys (h : name ∉ m.keys) (v : Value) :
    m.insert name v = m ++ [(name, v)] := by
  have happend := insert_append h [] v
  rwa [List.append_nil] at happend

/-- What is written is found. -/
@[simp] theorem lookup_insert_self : (m.insert name v).lookup name = some v := by
  induction m with
  | nil => exact List.lookup_cons_self
  | cons entry rest ih =>
      rw [insert]
      split
      · next h => rw [h, List.lookup_cons_self]
      · next h => rw [List.lookup_cons, beq_false_of_ne (Ne.symm h), ih]

/-- Writing one entry leaves the others. -/
theorem lookup_insert_of_ne (h : other ≠ name) :
    (m.insert name v).lookup other = m.lookup other := by
  induction m with
  | nil => rw [insert, List.lookup_cons, beq_false_of_ne h]
  | cons entry rest ih =>
      rw [insert]
      split
      · next hname => rw [List.lookup_cons, List.lookup_cons, hname, beq_false_of_ne h]
      · rw [List.lookup_cons, List.lookup_cons, ih]

/-- Writing what is there changes nothing. -/
theorem insert_of_lookup (h : m.lookup name = some v) : m.insert name v = m := by
  induction m with
  | nil => contradiction
  | cons entry rest ih =>
      rw [insert]
      split
      · next hname =>
          rw [← hname, List.lookup_cons_self] at h
          rw [← Option.some.inj h]
      · next hname =>
          rw [List.lookup_cons, beq_false_of_ne (Ne.symm hname)] at h
          rw [ih h]

/-- A key that is there stays in its place. -/
theorem keys_insert_of_mem (h : name ∈ m.keys) : (m.insert name v).keys = m.keys := by
  induction m with
  | nil => contradiction
  | cons entry rest ih =>
      rw [insert]
      split
      · next hname => rw [keys, keys, List.map_cons, List.map_cons, hname]
      · next hname =>
          have hrest : name ∈ keys rest := (List.mem_cons.mp h).resolve_left (Ne.symm hname)
          exact congrArg (entry.1 :: ·) (ih hrest)

/-- A key that is not there comes in behind the others. -/
theorem keys_insert_of_not_mem (h : name ∉ m.keys) : (m.insert name v).keys = m.keys ++ [name] := by
  rw [insert_of_not_mem_keys h, keys, List.map_append]
  rfl

/-- The keys after a write are those that were there and the one that was written. -/
theorem mem_keys_insert : other ∈ (m.insert name v).keys ↔ other = name ∨ other ∈ m.keys := by
  by_cases hname : name ∈ m.keys
  · rw [keys_insert_of_mem hname]
    exact ⟨Or.inr, fun h => h.elim (fun heq => heq ▸ hname) id⟩
  · rw [keys_insert_of_not_mem hname, List.mem_append, List.mem_singleton, or_comm]

/-- An entry after a write is the one that was written, or it was there. -/
theorem mem_insert {entry : String × Value} (h : entry ∈ m.insert name v) :
    entry = (name, v) ∨ entry ∈ m := by
  induction m with
  | nil => exact Or.inl (List.mem_singleton.mp h)
  | cons head rest ih =>
      rw [insert] at h
      split at h
      · next hname =>
          rcases List.mem_cons.mp h with rfl | h
          · exact Or.inl (by rw [← hname])
          · exact Or.inr (List.mem_cons_of_mem _ h)
      · rcases List.mem_cons.mp h with rfl | h
        · exact Or.inr List.mem_cons_self
        · exact (ih h).imp_right (List.mem_cons_of_mem _)

/-- Writing holds no key twice. -/
theorem nodup_keys_insert (h : m.keys.Nodup) : (m.insert name v).keys.Nodup := by
  by_cases hname : name ∈ m.keys
  · rw [keys_insert_of_mem hname]
    exact h
  · have hfresh : ∀ key ∈ m.keys, ∀ key' ∈ [name], key ≠ key' := by
      rintro key hkey key' hkey' rfl
      exact hname (List.mem_singleton.mp hkey' ▸ hkey)
    rw [keys_insert_of_not_mem hname]
    exact List.nodup_append.mpr ⟨h, List.pairwise_singleton _ _, hfresh⟩

/-! ## Taking one entry out -/

/-- Erasing leaves the other entries in their order. -/
theorem erase_sublist (m : Mapping) (key : String) : List.Sublist (m.erase key) m := by
  induction m with
  | nil => exact List.Sublist.slnil
  | cons entry rest ih =>
      rw [erase]
      split
      · exact List.sublist_cons_self entry rest
      · exact ih.cons_cons entry

/-- The keys that remain keep their order. -/
theorem keys_erase : (m.erase name).keys = m.keys.erase name := by
  induction m with
  | nil => rfl
  | cons entry rest ih =>
      rw [erase]
      split
      · next hname =>
          rw [← hname]
          exact (List.erase_cons_head ..).symm
      · next hname =>
          have hkeep : (keys (entry :: rest)).erase name = entry.1 :: (keys rest).erase name :=
            List.erase_cons_tail (mt beq_iff_eq.mp hname)
          rw [hkeep, ← ih]
          rfl

/-- Where no key is held twice, a key that is taken out is gone. -/
theorem lookup_erase_self (hnodup : m.keys.Nodup) : (m.erase name).lookup name = none := by
  refine lookup_of_not_mem_keys ?_
  rw [keys_erase]
  exact hnodup.not_mem_erase

/-- The other entries stay. -/
theorem lookup_erase_of_ne (h : other ≠ name) : (m.erase name).lookup other = m.lookup other := by
  induction m with
  | nil => rfl
  | cons entry rest ih =>
      rw [erase]
      split
      · next hname => rw [List.lookup_cons, hname, beq_false_of_ne h]
      · rw [List.lookup_cons, List.lookup_cons, ih]

/-- Taking out a key that is not there changes nothing. -/
theorem erase_of_lookup_eq_none (h : m.lookup name = none) : m.erase name = m := by
  induction m with
  | nil => rfl
  | cons entry rest ih =>
      have hne : name ≠ entry.1 := by
        rintro rfl
        rw [List.lookup_cons_self] at h
        contradiction
      rw [List.lookup_cons, beq_false_of_ne hne] at h
      rw [erase, if_neg (Ne.symm hne), ih h]

end Mapping

/-! ## Well-formed trees -/

namespace Value

theorem wellFormedItems_iff {items : List Value} :
    WellFormedItems items ↔ ∀ v ∈ items, v.WellFormed := by
  induction items with
  | nil => simp [WellFormedItems]
  | cons v rest ih => rw [WellFormedItems, ih, List.forall_mem_cons]

theorem wellFormedEntries_iff {entries : List (String × Value)} :
    WellFormedEntries entries ↔ ∀ entry ∈ entries, entry.2.WellFormed := by
  induction entries with
  | nil => simp [WellFormedEntries]
  | cons entry rest ih => rw [WellFormedEntries, ih, List.forall_mem_cons]

/-- A sequence is well formed if its items are. -/
@[simp] theorem wellFormed_seq {items : List Value} :
    (Value.seq items).WellFormed ↔ ∀ v ∈ items, v.WellFormed := by
  rw [WellFormed, wellFormedItems_iff]

/-- A mapping is well formed if it holds no key twice and its values are well formed. -/
@[simp] theorem wellFormed_map {entries : Mapping} :
    (Value.map entries).WellFormed ↔
      entries.keys.Nodup ∧ ∀ entry ∈ entries, entry.2.WellFormed := by
  rw [WellFormed, wellFormedEntries_iff]
  rfl

/-- A child of a well-formed value is well formed. -/
theorem WellFormed.child? {v child : Value} {s : Segment} (hv : v.WellFormed)
    (h : v.child? s = some child) : child.WellFormed := by
  rcases child?_cases h with ⟨entries, name, rfl, rfl, hchild⟩ | ⟨items, i, rfl, rfl, hchild⟩
  · exact (wellFormed_map.mp hv).2 _ (Mapping.mem_of_lookup hchild)
  · exact wellFormed_seq.mp hv _ (List.mem_of_getElem? hchild)

/-- A node of a well-formed value is well formed. -/
theorem WellFormed.at? {v w : Value} {p : Path} (hv : v.WellFormed) (h : v.at? p = some w) :
    w.WellFormed :=
  at?_keeps WellFormed.child? hv h

end Value

/-- A mapping stays well formed when a well-formed value is written into it. -/
theorem Mapping.wellFormed_insert {m : Mapping} {name : String} {v : Value}
    (hm : (Value.map m).WellFormed) (hv : v.WellFormed) :
    (Value.map (m.insert name v)).WellFormed := by
  obtain ⟨hnodup, hvalues⟩ := Value.wellFormed_map.mp hm
  refine Value.wellFormed_map.mpr ⟨nodup_keys_insert hnodup, fun entry hentry => ?_⟩
  rcases mem_insert hentry with rfl | hold
  · exact hv
  · exact hvalues entry hold

/-- A mapping stays well formed when entries are left out. -/
theorem Mapping.wellFormed_of_sublist {m m' : Mapping} (hm : (Value.map m).WellFormed)
    (hsub : List.Sublist m' m) : (Value.map m').WellFormed := by
  obtain ⟨hnodup, hvalues⟩ := Value.wellFormed_map.mp hm
  exact Value.wellFormed_map.mpr
    ⟨hnodup.sublist (hsub.map Prod.fst), fun entry hentry => hvalues entry (hsub.subset hentry)⟩

end LayeredConfig
