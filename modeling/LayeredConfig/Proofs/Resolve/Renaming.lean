import LayeredConfig.Proofs.Resolve.Walk
import LayeredConfig.Proofs.Tree.Edits
import LayeredConfig.Proofs.Tree.Entries

/-!
# Renaming keys holds no key twice

Key resolution gives an entry a new name.  The entry is taken out, and comes in again at its
old place, unless the name is taken; then it overwrites the entry that has it.  So no key is
held twice afterwards (`wellFormed_rename`), however many keys are resolved and wherever that
stops (`wellFormed_resolveKeys`).

A walk over a tree replaces texts by values and then renames keys.  If the values are well
formed and the renaming keeps a mapping well formed, so is what the walk leaves, whether it
goes through or not (`Value.wellFormed_resolveLeaves`).
-/

namespace LayeredConfig

namespace Mapping

variable {m : Mapping} {key name : String} {v : Value}

/-- An entry put in is one more entry, wherever it comes to stand. -/
theorem place_perm (m : Mapping) (i : Nat) (name : String) (v : Value) :
    List.Perm (m.place i name v) ((name, v) :: m) := by
  have hmiddle : List.Perm (m.place i name v) ((name, v) :: (m.take i ++ m.drop i)) :=
    List.perm_middle
  rwa [List.take_append_drop] at hmiddle

theorem hasKey_iff : m.hasKey name = true ↔ name ∈ m.keys := by
  simp [hasKey, keys]

/-- A mapping stays well formed when an entry with a new key is put in anywhere. -/
theorem wellFormed_place (hm : (Value.map m).WellFormed) (hname : name ∉ m.keys)
    (hv : v.WellFormed) (i : Nat) : (Value.map (m.place i name v)).WellFormed := by
  obtain ⟨hnodup, hvalues⟩ := Value.wellFormed_map.mp hm
  have hperm := place_perm m i name v
  have hkeys : (keys ((name, v) :: m)).Nodup := List.nodup_cons.mpr ⟨hname, hnodup⟩
  refine Value.wellFormed_map.mpr ⟨(hperm.map Prod.fst).nodup_iff.mpr hkeys, fun entry hentry => ?_⟩
  rcases List.mem_cons.mp (hperm.subset hentry) with rfl | hold
  · exact hv
  · exact hvalues entry hold

/-- **A renamed entry holds no key twice.** -/
theorem wellFormed_rename (hm : (Value.map m).WellFormed) (key name : String) :
    (Value.map (m.rename key name)).WellFormed := by
  rw [rename]
  split
  · exact hm
  · next v hlookup =>
      have hv : v.WellFormed := (Value.wellFormed_map.mp hm).2 _ (mem_of_lookup hlookup)
      have hothers : (Value.map (m.erase key)).WellFormed :=
        wellFormed_of_sublist hm (erase_sublist m key)
      dsimp only
      by_cases htaken : (m.erase key).hasKey name = true
      · rw [if_pos htaken]
        exact wellFormed_insert hothers hv
      · rw [if_neg htaken]
        exact wellFormed_place hothers (fun hmem => htaken (hasKey_iff.mpr hmem)) hv _

end Mapping

/-- **Resolving the keys of a mapping** keeps it well formed, also if it stops. -/
theorem wellFormed_resolveKeys (enabled : Bool) (value : String → Except Unresolved Value)
    {m : Mapping} (hm : (Value.map m).WellFormed) :
    (Value.map (resolveKeys enabled value m).result).WellFormed := by
  rw [resolveKeys]
  split
  · refine Edited.foldl_keeps (P := fun m : Mapping => (Value.map m).WellFormed)
      (fun m key _ hm => ?_) hm
    split
    · split
      · exact hm
      · exact Mapping.wellFormed_rename hm key _
    · exact hm
  · exact hm

/-! ## The walk -/

namespace Edited

variable {ε α : Type} {edit : α → Edited ε α}

/-- A member after a walk is what became of a member, or a member that was not reached. -/
theorem mem_walk {as : List α} {b : α} (h : b ∈ (walk edit as).result) :
    ∃ a ∈ as, b = (edit a).result ∨ b = a := by
  induction as with
  | nil => contradiction
  | cons a rest ih =>
      rw [walk] at h
      cases ha : (edit a).failure with
      | some e =>
          rw [ha] at h
          rcases List.mem_cons.mp h with rfl | h
          · exact ⟨a, List.mem_cons_self, Or.inl rfl⟩
          · exact ⟨b, List.mem_cons_of_mem _ h, Or.inr rfl⟩
      | none =>
          rw [ha] at h
          rcases List.mem_cons.mp h with rfl | h
          · exact ⟨a, List.mem_cons_self, Or.inl rfl⟩
          · obtain ⟨a', ha', hb⟩ := ih h
            exact ⟨a', List.mem_cons_of_mem _ ha', hb⟩

end Edited

namespace Value

variable {f : String → Except Unresolved Value} {k : Mapping → Edited Unresolved Mapping}

/-- The walk over the values of a mapping leaves its keys. -/
theorem keys_resolveEntries (entries : Mapping) :
    (resolveEntries f k entries).result.map Prod.fst = entries.map Prod.fst := by
  induction entries with
  | nil => rfl
  | cons entry rest ih =>
      rw [resolveEntries]
      cases (entry.2.resolveLeaves f k).failure with
      | some e => rfl
      | none => exact congrArg (entry.1 :: ·) ih

/-- The values of a mapping stay well formed in the walk, if each of them does. -/
theorem wellFormed_resolveEntries {entries : Mapping} (hm : (Value.map entries).WellFormed)
    (h : ∀ entry ∈ entries, (entry.2.resolveLeaves f k).result.WellFormed) :
    (Value.map (resolveEntries f k entries).result).WellFormed := by
  obtain ⟨hnodup, hvalues⟩ := wellFormed_map.mp hm
  refine wellFormed_map.mpr ⟨?_, fun entry hentry => ?_⟩
  · rw [Mapping.keys, keys_resolveEntries]
    exact hnodup
  · rw [resolveEntries_eq_walk] at hentry
    obtain ⟨old, hold, rfl | rfl⟩ := Edited.mem_walk hentry
    · exact h old hold
    · exact hvalues _ hold

/-- **A walk keeps a value well formed**, if the values that it puts in are and what is done
to the keys keeps a mapping well formed.  It need not go through. -/
theorem wellFormed_resolveLeaves {v : Value} (hv : v.WellFormed)
    (hf : ∀ text w, f text = .ok w → w.WellFormed)
    (hk : ∀ m, (Value.map m).WellFormed → (Value.map (k m).result).WellFormed) :
    (v.resolveLeaves f k).result.WellFormed := by
  induction v using tree_induction with
  | text text =>
      rw [resolveLeaves]
      split
      · split
        · next w hw => exact hf text w hw
        · trivial
      · trivial
  | other v hcomposite hother =>
      rw [resolveLeaves_of_other hcomposite hother]
      exact hv
  | seq items ih =>
      rw [resolveLeaves, Edited.result_map, wellFormed_seq, resolveItems_eq_walk]
      intro w hw
      obtain ⟨v, hmem, rfl | rfl⟩ := Edited.mem_walk hw
      · exact ih v hmem (wellFormed_seq.mp hv v hmem)
      · exact wellFormed_seq.mp hv w hmem
  | map entries ih =>
      have hvalues := (wellFormed_map.mp hv).2
      have hwalk : (Value.map (resolveEntries f k entries).result).WellFormed :=
        wellFormed_resolveEntries hv fun entry hentry => ih entry hentry (hvalues entry hentry)
      rw [resolveLeaves, Edited.result_map, Edited.andThen]
      split
      · exact hwalk
      · exact hk _ hwalk

end Value

end LayeredConfig
