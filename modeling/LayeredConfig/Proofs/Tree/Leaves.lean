import LayeredConfig.Proofs.Tree.Entries

/-!
# Leaves and where they stand

`Mapping.leaves` lists the scalars of a tree with their paths.  A leaf of a container is a
leaf of one of its members, one step further down (`mem_leavesOfItems`,
`mem_leavesOfEntries`).  In a well-formed tree the list and the paths say the same: the path
of a leaf leads to it (`at?_of_mem_leavesFrom`), and a path that leads to a scalar is the path
of a leaf (`mem_leavesFrom_of_at?`).
-/

namespace LayeredConfig

namespace Value

/-- A scalar is its own and only leaf. -/
theorem leavesFrom_of_scalar {v : Value} (hv : v.isComposite = false) (here : Path) :
    v.leavesFrom here = [(here, v)] := by
  cases v <;> first | rfl | contradiction

/-- The leaves of items are those of the single items. -/
theorem mem_leavesOfItems {here : Path} {leaf : Path × Value} {k : Nat} {items : List Value} :
    leaf ∈ leavesOfItems here k items ↔
      ∃ (i : Nat) (v : Value),
        items[i]? = some v ∧ leaf ∈ v.leavesFrom (here ++ [.index (k + i)]) := by
  induction items generalizing k with
  | nil => simp [leavesOfItems]
  | cons v rest ih =>
      rw [leavesOfItems, List.mem_append, ih]
      constructor
      · rintro (hhead | ⟨i, w, hw, hleaf⟩)
        · exact ⟨0, v, rfl, hhead⟩
        · refine ⟨i + 1, w, hw, ?_⟩
          rwa [Nat.add_right_comm] at hleaf
      · rintro ⟨i, w, hw, hleaf⟩
        cases i with
        | zero =>
            obtain rfl : v = w := Option.some.inj hw
            exact Or.inl hleaf
        | succ i =>
            refine Or.inr ⟨i, w, hw, ?_⟩
            rwa [Nat.add_right_comm]

/-- The leaves of entries are those of the single values. -/
theorem mem_leavesOfEntries {here : Path} {leaf : Path × Value} {entries : Mapping} :
    leaf ∈ leavesOfEntries here entries ↔
      ∃ entry ∈ entries, leaf ∈ entry.2.leavesFrom (here ++ [.key entry.1]) := by
  induction entries with
  | nil => simp [leavesOfEntries]
  | cons entry rest ih => simp [leavesOfEntries, ih]

/-- **The path of a leaf leads to it**, and no container stands there. -/
theorem at?_of_mem_leavesFrom {v : Value} (hv : v.WellFormed) {here p : Path} {w : Value}
    (h : (p, w) ∈ v.leavesFrom here) :
    ∃ r, p = here ++ r ∧ v.at? r = some w ∧ w.isComposite = false := by
  have hscalar : ∀ (v : Value) (here : Path), v.isComposite = false →
      (p, w) ∈ v.leavesFrom here →
        ∃ r, p = here ++ r ∧ v.at? r = some w ∧ w.isComposite = false := by
    intro v here hcomposite hleaf
    rw [leavesFrom_of_scalar hcomposite, List.mem_singleton] at hleaf
    obtain ⟨rfl, rfl⟩ := Prod.mk.inj hleaf
    exact ⟨[], (List.append_nil _).symm, rfl, hcomposite⟩
  induction v using tree_induction generalizing here with
  | text text => exact hscalar _ here rfl h
  | other v hcomposite _ => exact hscalar v here hcomposite h
  | seq items ih =>
      obtain ⟨i, item, hitem, hleaf⟩ := mem_leavesOfItems.mp h
      have hmem : item ∈ items := List.mem_of_getElem? hitem
      obtain ⟨r, rfl, hr, hcomposite⟩ := ih item hmem (wellFormed_seq.mp hv item hmem) hleaf
      refine ⟨.index i :: r, by simp, ?_, hcomposite⟩
      rw [at?, hitem]
      exact hr
  | map entries ih =>
      obtain ⟨entry, hentry, hleaf⟩ := mem_leavesOfEntries.mp h
      obtain ⟨hnodup, hvalues⟩ := wellFormed_map.mp hv
      obtain ⟨r, rfl, hr, hcomposite⟩ := ih entry hentry (hvalues entry hentry) hleaf
      refine ⟨.key entry.1 :: r, by simp, ?_, hcomposite⟩
      rw [at?, Mapping.lookup_of_mem hnodup hentry]
      exact hr

/-- **A path that leads to a scalar** is the path of a leaf. -/
theorem mem_leavesFrom_of_at? {v w : Value} {r : Path} (h : v.at? r = some w)
    (hw : w.isComposite = false) (here : Path) : (here ++ r, w) ∈ v.leavesFrom here := by
  induction r generalizing v here with
  | nil =>
      obtain rfl : v = w := Option.some.inj h
      rw [leavesFrom_of_scalar hw, List.append_nil]
      exact List.mem_singleton_self _
  | cons s rest ih =>
      obtain ⟨child, hchild, hrest⟩ := exists_child_of_at? h
      have hbelow := ih hrest (here ++ [s])
      rw [List.append_assoc, List.singleton_append] at hbelow
      rcases child?_cases hchild with ⟨entries, name, rfl, rfl, hentry⟩ | ⟨items, i, rfl, rfl, hitem⟩
      · exact mem_leavesOfEntries.mpr ⟨_, Mapping.mem_of_lookup hentry, hbelow⟩
      · refine mem_leavesOfItems.mpr ⟨i, child, hitem, ?_⟩
        rwa [Nat.zero_add]

end Value

namespace Mapping

variable {tree : Mapping}

/-- The path of a leaf starts with a key. -/
theorem exists_key_of_mem_leaves (htree : (Value.map tree).WellFormed) {p : Path} {v : Value}
    (hleaf : (p, v) ∈ tree.leaves) : ∃ name r, p = .key name :: r := by
  obtain ⟨entry, hentry, hbelow⟩ := Value.mem_leavesOfEntries.mp hleaf
  have hvalue : entry.2.WellFormed := (Value.wellFormed_map.mp htree).2 entry hentry
  obtain ⟨r, hr, -, -⟩ := Value.at?_of_mem_leavesFrom hvalue hbelow
  exact ⟨entry.1, r, hr⟩

/-- **The leaves of a tree** are the scalars that its paths lead to. -/
theorem mem_leaves_iff (htree : (Value.map tree).WellFormed) {p : Path} {v : Value} :
    (p, v) ∈ tree.leaves ↔ tree.get? p = some v ∧ v.isComposite = false := by
  constructor
  · intro h
    have hleaf : (p, v) ∈ (Value.map tree).leavesFrom [] := h
    obtain ⟨r, rfl, hr, hv⟩ := Value.at?_of_mem_leavesFrom htree hleaf
    refine ⟨?_, hv⟩
    rw [get?]
    split
    · next hempty =>
        rw [List.isEmpty_iff.mp hempty] at hr
        rw [← Option.some.inj hr] at hv
        contradiction
    · exact hr
  · rintro ⟨h, hv⟩
    rw [get?] at h
    split at h
    · contradiction
    · exact Value.mem_leavesFrom_of_at? h hv []

end Mapping

end LayeredConfig
