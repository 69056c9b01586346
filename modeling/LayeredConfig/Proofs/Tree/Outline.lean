import LayeredConfig.Proofs.Tree.Write

/-!
# The outline of a tree

Where a tree is gone through key by key, the paths of its mappings come in document order:
a key, then what is below it, then the next key.  `Mapping.keyPaths` lists them.

What is done to a tree in that order and stops at a path has been done to all that stands in
front of the path: to the entries before its first key, and below that key to what stands in
front of the rest of the path.  `Mapping.before` is that part of the tree.  Its own paths are
those in front of the path in the outline (`keyPaths_eq_before`), and mappings are found
there where mappings are in the tree (`at?_before`).
-/

namespace LayeredConfig

mutual

/-- The paths of keys below a value, in document order. -/
def Value.keyPaths : Value → List (List String)
  | .map entries => Value.keyPathsOfEntries entries
  | _ => []

/-- The paths of keys that entries open, in document order. -/
def Value.keyPathsOfEntries : List (String × Value) → List (List String)
  | [] => []
  | (name, v) :: rest => [name] :: v.keyPaths.map (name :: ·) ++ Value.keyPathsOfEntries rest

end

namespace Mapping

/-- The paths of keys of a tree, in document order. -/
def keyPaths (tree : Mapping) : List (List String) :=
  Value.keyPathsOfEntries tree

/-- What stands in front of a path of keys. -/
def before (tree : Mapping) : List String → Mapping
  | [] => []
  | [name] => tree.takeWhile fun entry => entry.1 != name
  | name :: next :: names =>
    (tree.takeWhile fun entry => entry.1 != name) ++
      match tree.lookup name with
      | some (.map entries) => [(name, .map (before entries (next :: names)))]
      | _ => []

variable {tree front behind entries : Mapping} {name next : String} {names : List String}
  {v : Value}

theorem keyPaths_cons (name : String) (v : Value) (rest : Mapping) :
    keyPaths ((name, v) :: rest) = [name] :: v.keyPaths.map (name :: ·) ++ keyPaths rest := rfl

theorem keyPaths_append (front behind : Mapping) :
    keyPaths (front ++ behind) = front.keyPaths ++ behind.keyPaths := by
  induction front with
  | nil => rfl
  | cons entry rest ih =>
      rw [List.cons_append, keyPaths_cons, keyPaths_cons, ih, List.append_assoc]

/-- A path of the outline opens with an entry, and goes on in its value. -/
theorem exists_entry_of_mem_keyPaths {q : List String} (h : q ∈ tree.keyPaths) :
    ∃ name v rest, (name, v) ∈ tree ∧ q = name :: rest ∧ (rest = [] ∨ rest ∈ v.keyPaths) := by
  induction tree with
  | nil => contradiction
  | cons entry tree ih =>
      obtain ⟨key, w⟩ := entry
      rw [keyPaths_cons] at h
      rcases List.mem_append.mp h with hhead | htail
      · rcases List.mem_cons.mp hhead with rfl | hbelow
        · exact ⟨key, w, [], List.mem_cons_self, rfl, Or.inl rfl⟩
        · obtain ⟨rest, hrest, rfl⟩ := List.mem_map.mp hbelow
          exact ⟨key, w, rest, List.mem_cons_self, rfl, Or.inr hrest⟩
      · obtain ⟨name, v, rest, hmem, hq, hrest⟩ := ih htail
        exact ⟨name, v, rest, List.mem_cons_of_mem _ hmem, hq, hrest⟩

/-! ## In front of a path -/

/-- The entries in front of a key. -/
theorem before_append_singleton (h : name ∉ front.keys) (v : Value) (behind : Mapping) :
    before (front ++ (name, v) :: behind) [name] = front := by
  have hfront : ∀ entry ∈ front, (entry.1 != name) = true := by
    intro entry hentry
    refine bne_iff_ne.mpr fun heq => h ?_
    exact List.mem_map.mpr ⟨entry, hentry, heq⟩
  rw [before, List.takeWhile_append_of_pos hfront, List.takeWhile_cons_of_neg (by simp),
    List.append_nil]

/-- What stands in front of a path of several keys: the entries in front of the first key, and
below it what stands in front of the others. -/
theorem before_append_cons (h : name ∉ front.keys) (entries behind : Mapping) (next : String)
    (names : List String) :
    before (front ++ (name, .map entries) :: behind) (name :: next :: names) =
      front ++ [(name, .map (entries.before (next :: names)))] := by
  have hlookup : List.lookup name (front ++ (name, .map entries) :: behind) =
      some (.map entries) := by
    rw [List.lookup_append, lookup_of_not_mem_keys h, Option.none_or, List.lookup_cons_self]
  have hfront := before_append_singleton h (.map entries) behind
  rw [before] at hfront
  rw [before, hfront, hlookup]

/-- An entry that is found divides the tree. -/
theorem exists_append_of_lookup (h : tree.lookup name = some v) :
    ∃ front behind : Mapping, tree = front ++ (name, v) :: behind ∧ name ∉ front.keys := by
  obtain ⟨front, behind, rfl, hfront⟩ := List.lookup_eq_some_iff.mp h
  refine ⟨front, behind, rfl, fun hmem => ?_⟩
  obtain ⟨entry, hentry, rfl⟩ := List.mem_map.mp hmem
  exact bne_iff_ne.mp (hfront entry hentry) rfl

/-- **The outline up to a path** is the outline of what stands in front of it. -/
theorem keyPaths_eq_before
    (h : (Value.map tree).at? (Path.ofKeys (name :: names)) = some v) :
    ∃ behind, tree.keyPaths =
      (tree.before (name :: names)).keyPaths ++ (name :: names) :: behind := by
  induction names generalizing tree name with
  | nil =>
      rw [Value.at?_ofKeys_cons] at h
      obtain ⟨child, hchild, -⟩ := Option.bind_eq_some_iff.mp h
      obtain ⟨front, behind, rfl, hfront⟩ := exists_append_of_lookup hchild
      rw [before_append_singleton hfront, keyPaths_append, keyPaths_cons]
      exact ⟨_, rfl⟩
  | cons next names ih =>
      rw [Value.at?_ofKeys_cons] at h
      obtain ⟨child, hchild, hbelow⟩ := Option.bind_eq_some_iff.mp h
      obtain ⟨entries, rfl⟩ := Value.eq_map_of_at?_ofKeys hbelow
      obtain ⟨front, behind, rfl, hfront⟩ := exists_append_of_lookup hchild
      obtain ⟨rest, hrest⟩ := ih hbelow
      have hkeys : (Value.map entries).keyPaths = _ := hrest
      refine ⟨rest.map (name :: ·) ++ behind.keyPaths, ?_⟩
      rw [before_append_cons hfront, keyPaths_append, keyPaths_append, keyPaths_cons,
        keyPaths_cons, hkeys]
      simp [keyPaths, Value.keyPaths, Value.keyPathsOfEntries]

/-- What stands in front of a path of a well-formed tree is well formed. -/
theorem wellFormed_before (htree : (Value.map tree).WellFormed)
    (hpath : (Value.map tree).at? (Path.ofKeys (name :: names)) = some v) :
    (Value.map (tree.before (name :: names))).WellFormed := by
  induction names generalizing tree name with
  | nil =>
      rw [before]
      exact wellFormed_of_sublist htree (List.takeWhile_sublist _)
  | cons next names ih =>
      rw [Value.at?_ofKeys_cons] at hpath
      obtain ⟨child, hchild, hbelow⟩ := Option.bind_eq_some_iff.mp hpath
      obtain ⟨below, rfl⟩ := Value.eq_map_of_at?_ofKeys hbelow
      obtain ⟨front, behind, rfl, hfront⟩ := exists_append_of_lookup hchild
      have hchild' := (Value.wellFormed_map.mp htree).2 _ (mem_of_lookup hchild)
      have hfront' : (Value.map front).WellFormed :=
        wellFormed_of_sublist htree (List.sublist_append_left _ _)
      rw [before_append_cons hfront, ← insert_of_not_mem_keys hfront]
      exact wellFormed_insert hfront' (ih hchild' hbelow)

/-- What is behind the entries that have a key is not reached by it. -/
theorem at?_append_of_mem_keys (h : name ∈ front.keys) (behind : Mapping) :
    (Value.map (front ++ behind)).at? (Path.ofKeys (name :: names)) =
      (Value.map front).at? (Path.ofKeys (name :: names)) := by
  obtain ⟨v, hv⟩ := exists_lookup_of_mem_keys h
  rw [Value.at?_ofKeys_cons, Value.at?_ofKeys_cons, List.lookup_append, hv, Option.some_or]

/-- **In front of a path** a mapping stands wherever one stands in the tree. -/
theorem at?_before (hpath : (Value.map tree).at? (Path.ofKeys (name :: names)) = some v)
    {q : List String} (hq : q ∈ (tree.before (name :: names)).keyPaths)
    (h : (Value.map tree).at? (Path.ofKeys q) = some (.map entries)) :
    ∃ entries', (Value.map (tree.before (name :: names))).at? (Path.ofKeys q) =
      some (.map entries') := by
  induction names generalizing tree name q with
  | nil =>
      rw [Value.at?_ofKeys_cons] at hpath
      obtain ⟨child, hchild, -⟩ := Option.bind_eq_some_iff.mp hpath
      obtain ⟨front, behind, rfl, hfront⟩ := exists_append_of_lookup hchild
      rw [before_append_singleton hfront] at hq ⊢
      obtain ⟨key, w, rest, hmem, rfl, -⟩ := exists_entry_of_mem_keyPaths hq
      rw [at?_append_of_mem_keys (List.mem_map.mpr ⟨_, hmem, rfl⟩)] at h
      exact ⟨entries, h⟩
  | cons next names ih =>
      rw [Value.at?_ofKeys_cons] at hpath
      obtain ⟨child, hchild, hbelow⟩ := Option.bind_eq_some_iff.mp hpath
      obtain ⟨below, rfl⟩ := Value.eq_map_of_at?_ofKeys hbelow
      obtain ⟨front, behind, rfl, hfront⟩ := exists_append_of_lookup hchild
      rw [before_append_cons hfront] at hq ⊢
      obtain ⟨key, w, rest, hmem, rfl, hrest⟩ := exists_entry_of_mem_keyPaths hq
      by_cases hkey : key ∈ front.keys
      · rw [at?_append_of_mem_keys hkey] at h ⊢
        exact ⟨entries, h⟩
      · -- the entry is the one that the path goes through
        have hlast : (key, w) = (name, .map (before below (next :: names))) := by
          rcases List.mem_append.mp hmem with hmem | hmem
          · exact absurd (List.mem_map.mpr ⟨_, hmem, rfl⟩) hkey
          · exact List.mem_singleton.mp hmem
        obtain ⟨rfl, rfl⟩ := Prod.mk.inj hlast
        rw [Value.at?_ofKeys_cons, hchild, Option.bind_some] at h
        rw [Value.at?_ofKeys_cons, List.lookup_append, lookup_of_not_mem_keys hkey,
          Option.none_or, List.lookup_cons_self, Option.bind_some]
        rcases hrest with rfl | hrest
        · exact ⟨_, rfl⟩
        · exact ih hbelow hrest h

end Mapping

end LayeredConfig
