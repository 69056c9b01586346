import LayeredConfig.Proofs.Resolve.Renaming
import Mathlib.Data.List.Nodup

/-!
# The places and values of renamed keys

Key resolution renames the entries of a mapping one after the other.  Every step takes an entry
out, so that places shift, and puts it in again at its place or over an entry that is there.
What the steps come to can be said without them (`Renaming.Applied`):

* the keys are the new names, each once;
* a name stands where the key of that name stood, if that is not renamed itself, and else where
  the first key stood that is renamed to it;
* it has the value of the last key that is renamed to it, and else its own.

One step adds one key to those that are renamed (`Renaming.Applied.step`), as long as no key
before was renamed to it.  The run over all keys is an induction on those that are still to be
renamed (`Renaming.Applied.run`).
-/

namespace LayeredConfig

namespace Mapping

variable {m : Mapping} {key name other : String} {v : Value}

/-! ## One entry -/

theorem keys_place (m : Mapping) (i : Nat) (name : String) (v : Value) :
    (m.place i name v).keys = m.keys.take i ++ name :: m.keys.drop i := by
  rw [place, keys, keys, List.map_append, List.map_cons, List.map_take, List.map_drop]

/-- What is put in is found. -/
theorem lookup_place_self (h : name ∉ m.keys) (i : Nat) (v : Value) :
    (m.place i name v).lookup name = some v := by
  have hfront : name ∉ Mapping.keys (m.take i) := fun hmem =>
    h (((List.take_sublist i m).map Prod.fst).subset hmem)
  rw [place, List.lookup_append, lookup_of_not_mem_keys hfront, List.lookup_cons_self]
  rfl

/-- Putting an entry in leaves the others. -/
theorem lookup_place_of_ne (h : other ≠ name) (m : Mapping) (i : Nat) (v : Value) :
    (m.place i name v).lookup other = m.lookup other := by
  rw [place, List.lookup_append, List.lookup_cons, beq_false_of_ne h, ← List.lookup_append,
    List.take_append_drop]

/-- **A renamed entry keeps its place**, unless another entry has the name. -/
theorem keys_rename (hnodup : m.keys.Nodup) {front behind : List String}
    (hkeys : m.keys = front ++ key :: behind) (name : String) :
    (m.rename key name).keys =
      front ++ ((if name ≠ key ∧ name ∈ m.keys then [] else [name]) ++ behind) := by
  have hfront : key ∉ front := by
    rw [hkeys] at hnodup
    exact fun hmem => (List.nodup_append.mp hnodup).2.2 key hmem key List.mem_cons_self rfl
  have hothers : (m.erase key).keys = front ++ behind := by
    rw [keys_erase, hkeys, List.erase_append_right _ hfront, List.erase_cons_head]
  have htaken : name ∈ (m.erase key).keys ↔ name ≠ key ∧ name ∈ m.keys := by
    rw [keys_erase, hnodup.mem_erase_iff]
  obtain ⟨v, hv⟩ := exists_lookup_of_mem_keys (hkeys ▸ List.mem_append_right front
    List.mem_cons_self : key ∈ m.keys)
  rw [rename, hv]
  dsimp only
  by_cases hname : name ≠ key ∧ name ∈ m.keys
  · rw [if_pos (hasKey_iff.mpr (htaken.mpr hname)), keys_insert_of_mem (htaken.mpr hname), hothers,
      if_pos hname, List.nil_append]
  · have hindex : m.keys.idxOf key = front.length := by
      rw [hkeys, List.idxOf_append_of_notMem hfront, List.idxOf_cons_self, Nat.add_zero]
    rw [if_neg fun hmem => hname (htaken.mp (hasKey_iff.mp hmem)), keys_place, hothers, hindex,
      List.take_left, List.drop_left, if_neg hname, List.singleton_append]

/-- The keys after an entry was renamed are its new name and those of the other entries. -/
theorem mem_keys_of_rename (hnodup : m.keys.Nodup) (hkey : key ∈ m.keys)
    (h : other ∈ (m.rename key name).keys) : other = name ∨ other ≠ key ∧ other ∈ m.keys := by
  obtain ⟨front, behind, hkeys⟩ := List.append_of_mem hkey
  have hothers : other ∈ front ++ behind → other ≠ key ∧ other ∈ m.keys := by
    intro hmem
    rw [hkeys] at hnodup ⊢
    refine ⟨fun heq => ?_, List.perm_middle.mem_iff.mpr (List.mem_cons_of_mem _ hmem)⟩
    exact (List.nodup_cons.mp (List.nodup_middle.mp hnodup)).1 (heq ▸ hmem)
  rw [keys_rename hnodup hkeys, List.mem_append, List.mem_append] at h
  rcases h with hfront | hmiddle | hbehind
  · exact Or.inr (hothers (List.mem_append_left _ hfront))
  · split at hmiddle
    · contradiction
    · exact Or.inl (List.mem_singleton.mp hmiddle)
  · exact Or.inr (hothers (List.mem_append_right _ hbehind))

/-- A renamed entry keeps its value. -/
theorem lookup_rename_self (h : m.lookup key = some v) (name : String) :
    (m.rename key name).lookup name = some v := by
  rw [rename, h]
  dsimp only
  split
  · exact lookup_insert_self
  · next htaken => exact lookup_place_self (fun hmem => htaken (hasKey_iff.mpr hmem)) _ v

/-- Renaming one entry leaves the values of the others. -/
theorem lookup_rename_of_ne (hname : other ≠ name) (hkey : other ≠ key) (m : Mapping) :
    (m.rename key name).lookup other = m.lookup other := by
  rw [rename]
  split
  · rfl
  · dsimp only
    split
    · rw [lookup_insert_of_ne hname, lookup_erase_of_ne hkey]
    · rw [lookup_place_of_ne hname, lookup_erase_of_ne hkey]

/-- Renaming brings in no value. -/
theorem exists_of_mem_rename {entry : String × Value} (h : entry ∈ m.rename key name) :
    ∃ old ∈ m, entry.2 = old.2 := by
  have hothers : ∀ entry ∈ m.erase key, ∃ old ∈ m, entry.2 = old.2 :=
    fun entry hentry => ⟨entry, (erase_sublist m key).subset hentry, rfl⟩
  rw [rename] at h
  split at h
  · exact ⟨entry, h, rfl⟩
  · next v hv =>
      dsimp only at h
      have hcases : entry = (name, v) ∨ entry ∈ m.erase key := by
        split at h
        · exact mem_insert h
        · exact List.mem_cons.mp ((place_perm _ _ name v).subset h)
      rcases hcases with rfl | hold
      · exact ⟨_, mem_of_lookup hv, rfl⟩
      · exact hothers entry hold

/-- An entry that is renamed to its own key stays. -/
theorem rename_self (hnodup : m.keys.Nodup) (hkey : key ∈ m.keys) : m.rename key key = m := by
  obtain ⟨front, behind, hkeys⟩ := List.append_of_mem hkey
  have hsame : (m.rename key key).keys = m.keys := by
    rw [keys_rename hnodup hkeys, if_neg fun h => h.1 rfl, List.singleton_append, hkeys]
  refine eq_of_keys_of_lookup (hsame.symm ▸ hnodup) hsame fun other _ => ?_
  by_cases hother : other = key
  · obtain ⟨v, hv⟩ := exists_lookup_of_mem_keys hkey
    rw [hother, hv, lookup_rename_self hv]
  · exact lookup_rename_of_ne hother hother m

end Mapping

/-! ## Several entries -/

/-- New names for some keys of a mapping, which are listed in its order. -/
structure Renaming where
  moved : List String
  onto : String → String

namespace Renaming

/-- The name of a key: the new one, if it is renamed, and else its own. -/
def newName (ρ : Renaming) (key : String) : String :=
  if key ∈ ρ.moved then ρ.onto key else key

/-- The new name of a key takes the key's place.  It does so if the key is not renamed, or if no
key that is not renamed has the name already, and of those that are renamed to it the key is
the first. -/
def HoldsPlace (ρ : Renaming) (keys : List String) (key : String) : Prop :=
  key ∉ ρ.moved ∨
    (ρ.onto key ∈ keys → ρ.onto key ∈ ρ.moved) ∧
      ρ.moved.find? (fun other => ρ.onto other = ρ.onto key) = some key

instance (ρ : Renaming) (keys : List String) (key : String) : Decidable (ρ.HoldsPlace keys key) :=
  inferInstanceAs (Decidable (_ ∨ _))

/-- The key whose value a name has: the last one that is renamed to it, and else the name. -/
def source (ρ : Renaming) (name : String) : String :=
  (ρ.moved.filter fun key => ρ.onto key = name).getLast?.getD name

/-- No key is renamed to another key that is renamed. -/
def Apart (ρ : Renaming) : Prop :=
  ∀ key ∈ ρ.moved, ρ.onto key ∈ ρ.moved → ρ.onto key = key

/-- A mapping after its keys got their new names. -/
structure Applied (ρ : Renaming) (before after : Mapping) : Prop where
  distinct : after.keys.Nodup
  names : ∀ name, name ∈ after.keys ↔ ∃ key ∈ before.keys, ρ.newName key = name
  order : after.keys = (before.keys.filter fun key => ρ.HoldsPlace before.keys key).map ρ.newName
  value : ∀ name ∈ after.keys, after.lookup name = before.lookup (ρ.source name)

variable {ρ : Renaming} {m cur : Mapping} {key other name : String} {keys : List String}

theorem newName_of_mem (h : key ∈ ρ.moved) : ρ.newName key = ρ.onto key :=
  if_pos h

theorem newName_of_not_mem (h : key ∉ ρ.moved) : ρ.newName key = key :=
  if_neg h

/-- Of the keys with one name, one holds the place. -/
theorem exists_holdsPlace (hmoved : ρ.moved ⊆ keys) (hkey : key ∈ keys) :
    ∃ holder ∈ keys, ρ.HoldsPlace keys holder ∧ ρ.newName holder = ρ.newName key := by
  by_cases hrenamed : key ∈ ρ.moved
  · rw [newName_of_mem hrenamed]
    -- a key that is not renamed goes before those that are, and of these the first
    by_cases htaken : ρ.onto key ∈ keys ∧ ρ.onto key ∉ ρ.moved
    · exact ⟨_, htaken.1, Or.inl htaken.2, newName_of_not_mem htaken.2⟩
    · cases hfirst : ρ.moved.find? fun other => ρ.onto other = ρ.onto key with
      | none =>
          have hnone := List.find?_eq_none.mp hfirst key hrenamed
          simp at hnone
      | some first =>
          have hmem : first ∈ ρ.moved := List.mem_of_find?_eq_some hfirst
          have hname : ρ.onto first = ρ.onto key := by
            simpa using List.find?_some hfirst
          refine ⟨first, hmoved hmem, Or.inr ⟨fun hin => ?_, ?_⟩, ?_⟩
          · by_contra hout
            exact htaken ⟨hname ▸ hin, hname ▸ hout⟩
          · rw [hname, hfirst]
          · rw [newName_of_mem hmem, hname]
  · exact ⟨key, hkey, Or.inl hrenamed, rfl⟩

/-- No two keys hold the place of one name. -/
theorem eq_of_holdsPlace (hkey : key ∈ keys) (hother : other ∈ keys)
    (h : ρ.HoldsPlace keys key) (h' : ρ.HoldsPlace keys other)
    (hname : ρ.newName key = ρ.newName other) : key = other := by
  rcases h with hkept | ⟨hfree, hfirst⟩
  · rw [newName_of_not_mem hkept] at hname
    rcases h' with hkept' | ⟨hfree', hfirst'⟩
    · rwa [newName_of_not_mem hkept'] at hname
    · rw [newName_of_mem (List.mem_of_find?_eq_some hfirst')] at hname
      exact absurd (hname ▸ hfree' (hname ▸ hkey)) hkept
  · rw [newName_of_mem (List.mem_of_find?_eq_some hfirst)] at hname
    rcases h' with hkept' | ⟨hfree', hfirst'⟩
    · rw [newName_of_not_mem hkept'] at hname
      exact absurd (hname ▸ hfree (hname ▸ hother)) hkept'
    · rw [newName_of_mem (List.mem_of_find?_eq_some hfirst')] at hname
      rw [← hname, hfirst] at hfirst'
      exact Option.some.inj hfirst'

/-- That the names are distinct and that all are there follows from their order. -/
theorem Applied.of_order (hkeys : m.keys.Nodup) (hmoved : ρ.moved ⊆ m.keys)
    (order : cur.keys = (m.keys.filter fun key => ρ.HoldsPlace m.keys key).map ρ.newName)
    (value : ∀ name ∈ cur.keys, cur.lookup name = m.lookup (ρ.source name)) :
    ρ.Applied m cur where
  distinct := by
    rw [order]
    refine List.Nodup.map_on (fun key hkey other hother hname => ?_) (hkeys.filter _)
    rw [List.mem_filter, decide_eq_true_eq] at hkey hother
    exact eq_of_holdsPlace hkey.1 hother.1 hkey.2 hother.2 hname
  names := by
    intro name
    rw [order, List.mem_map]
    constructor
    · rintro ⟨key, hkey, rfl⟩
      exact ⟨key, (List.mem_filter.mp hkey).1, rfl⟩
    · rintro ⟨key, hkey, rfl⟩
      obtain ⟨holder, hmem, hholds, hname⟩ := exists_holdsPlace hmoved hkey
      exact ⟨holder, List.mem_filter.mpr ⟨hmem, decide_eq_true hholds⟩, hname⟩
  order := order
  value := value

/-- Without new names a mapping is what it is. -/
theorem applied_nil (onto : String → String) (hm : m.keys.Nodup) :
    Applied ⟨[], onto⟩ m m := by
  refine Applied.of_order hm (List.nil_subset _) ?_ fun name _ => rfl
  have hplaces : ∀ key ∈ m.keys, HoldsPlace ⟨[], onto⟩ m.keys key :=
    fun key _ => Or.inl List.not_mem_nil
  rw [List.filter_eq_self.mpr fun key hkey => decide_eq_true (hplaces key hkey)]
  exact (List.map_id'' (fun key => newName_of_not_mem List.not_mem_nil) m.keys).symm

/-! ## One more new name -/

/-- The new names and one more. -/
def also (ρ : Renaming) (key : String) : Renaming :=
  { ρ with moved := ρ.moved ++ [key] }

theorem mem_moved_also : other ∈ (ρ.also key).moved ↔ other ∈ ρ.moved ∨ other = key := by
  rw [also, List.mem_append, List.mem_singleton]

theorem newName_also_self (ρ : Renaming) (key : String) : (ρ.also key).newName key = ρ.onto key :=
  newName_of_mem (mem_moved_also.mpr (Or.inr rfl))

theorem newName_also_of_ne (h : other ≠ key) : (ρ.also key).newName other = ρ.newName other := by
  simp only [newName, mem_moved_also, h, or_false]
  rfl

theorem source_also_self (ρ : Renaming) (key : String) :
    (ρ.also key).source (ρ.onto key) = key := by
  simp [source, also, List.filter_append]

theorem source_also_of_ne (h : name ≠ ρ.onto key) :
    (ρ.also key).source name = ρ.source name := by
  have hkept : (ρ.moved ++ [key]).filter (fun other => ρ.onto other = name) =
      ρ.moved.filter fun other => ρ.onto other = name := by
    rw [List.filter_append, List.filter_cons_of_neg (by simpa using h.symm), List.filter_nil,
      List.append_nil]
  rw [source, source, ← hkept]
  rfl

/-- The other keys hold their places as before, if none of them was renamed to the key. -/
theorem holdsPlace_also_of_ne (hapart : ∀ other ∈ ρ.moved, ρ.onto other ≠ key)
    (hne : other ≠ key) : (ρ.also key).HoldsPlace keys other ↔ ρ.HoldsPlace keys other := by
  by_cases hmoved : other ∈ ρ.moved
  · have hfirst : (ρ.moved ++ [key]).find? (fun k => ρ.onto k = ρ.onto other) =
        ρ.moved.find? fun k => ρ.onto k = ρ.onto other := by
      rw [List.find?_append]
      cases hfound : ρ.moved.find? fun k => ρ.onto k = ρ.onto other with
      | none =>
          have hnone := List.find?_eq_none.mp hfound other hmoved
          simp at hnone
      | some first => rfl
    have hname : ρ.onto other ∈ (ρ.also key).moved ↔ ρ.onto other ∈ ρ.moved := by
      rw [mem_moved_also, or_iff_left (hapart other hmoved)]
    rw [HoldsPlace, HoldsPlace, mem_moved_also, or_iff_left hne]
    exact or_congr_right (and_congr (imp_congr_right fun _ => hname) (by rw [← hfirst]; rfl))
  · have hkept : other ∉ (ρ.also key).moved := fun hmem =>
      (mem_moved_also.mp hmem).elim hmoved hne
    exact ⟨fun _ => Or.inl hmoved, fun _ => Or.inl hkept⟩

/-- The key itself holds the place of its new name, if there is no other key of that name. -/
theorem holdsPlace_also_self (hnew : key ∉ ρ.moved) :
    (ρ.also key).HoldsPlace keys key ↔
      (ρ.onto key ∈ keys → ρ.onto key ∈ ρ.moved ∨ ρ.onto key = key) ∧
        ∀ other ∈ ρ.moved, ρ.onto other ≠ ρ.onto key := by
  have hmem : key ∈ (ρ.also key).moved := mem_moved_also.mpr (Or.inr rfl)
  rw [HoldsPlace, or_iff_right (not_not_intro hmem)]
  refine and_congr (imp_congr_right fun _ => mem_moved_also) ?_
  have hfind : (ρ.also key).moved.find? (fun other => (ρ.also key).onto other =
      (ρ.also key).onto key) = (ρ.moved.find? fun other => ρ.onto other = ρ.onto key).or
        (some key) := by
    rw [also, List.find?_append]
    simp
  rw [hfind]
  cases hfirst : ρ.moved.find? fun other => ρ.onto other = ρ.onto key with
  | none => simpa using List.find?_eq_none.mp hfirst
  | some first =>
      have hmoved : first ∈ ρ.moved := List.mem_of_find?_eq_some hfirst
      have hname : ρ.onto first = ρ.onto key := by
        simpa using List.find?_some hfirst
      refine ⟨fun heq => ?_, fun hnone => absurd hname (hnone first hmoved)⟩
      exact absurd (Option.some.inj heq ▸ hmoved) hnew

/-- The names that take the places of a part of the keys. -/
def placed (ρ : Renaming) (keys part : List String) : List String :=
  (part.filter fun key => ρ.HoldsPlace keys key).map ρ.newName

theorem placed_append (ρ : Renaming) (keys front behind : List String) :
    ρ.placed keys (front ++ behind) = ρ.placed keys front ++ ρ.placed keys behind := by
  rw [placed, placed, placed, List.filter_append, List.map_append]

theorem placed_cons (ρ : Renaming) (keys part : List String) (key : String) :
    ρ.placed keys (key :: part) =
      (if ρ.HoldsPlace keys key then [ρ.newName key] else []) ++ ρ.placed keys part := by
  rw [placed, placed, List.filter_cons]
  by_cases h : ρ.HoldsPlace keys key <;> simp [h]

/-- The names that take the places of other keys. -/
theorem placed_also (hapart : ∀ other ∈ ρ.moved, ρ.onto other ≠ key) {part : List String}
    (hpart : key ∉ part) : (ρ.also key).placed keys part = ρ.placed keys part := by
  have hne : ∀ other ∈ part, other ≠ key := fun other hmem heq => hpart (heq ▸ hmem)
  rw [placed, placed, List.filter_congr fun other hmem =>
    decide_eq_decide.mpr (holdsPlace_also_of_ne hapart (hne other hmem))]
  exact List.map_congr_left fun other hmem =>
    newName_also_of_ne (hne other (List.mem_filter.mp hmem).1)

/-- The key does not hold the place of its new name exactly if another entry has the name. -/
theorem Applied.taken_iff (h : ρ.Applied m cur) (hmoved : ρ.moved ⊆ m.keys)
    (hnew : key ∉ ρ.moved) (hapart : ∀ other ∈ ρ.moved, ρ.onto other ≠ key) :
    (ρ.onto key ≠ key ∧ ρ.onto key ∈ cur.keys) ↔ ¬ (ρ.also key).HoldsPlace m.keys key := by
  rw [h.names, holdsPlace_also_self hnew]
  constructor
  · rintro ⟨hne, other, hother, hname⟩ ⟨hfree, hfirst⟩
    by_cases hrenamed : other ∈ ρ.moved
    · rw [newName_of_mem hrenamed] at hname
      exact hfirst other hrenamed hname
    · rw [newName_of_not_mem hrenamed] at hname
      rcases hfree (hname ▸ hother) with htaken | hself
      · exact hrenamed (hname ▸ htaken)
      · exact hne hself
  · intro hholds
    by_contra hfree
    refine hholds ⟨fun hin => ?_, fun other hother hname => ?_⟩
    · by_contra hout
      obtain ⟨hkept, hne⟩ := not_or.mp hout
      exact hfree ⟨hne, _, hin, newName_of_not_mem hkept⟩
    · have hne : ρ.onto key ≠ key := hname ▸ hapart other hother
      exact hfree ⟨hne, other, hmoved hother, (newName_of_mem hother).trans hname⟩

/-- A key that is still to be renamed stands between the names of the others. -/
theorem Applied.keys_split (h : ρ.Applied m cur) {front behind : List String}
    (hsplit : m.keys = front ++ key :: behind) (hnew : key ∉ ρ.moved) :
    cur.keys = ρ.placed m.keys front ++ key :: ρ.placed m.keys behind := by
  have horder : cur.keys = ρ.placed m.keys m.keys := h.order
  have hplace : ρ.HoldsPlace m.keys key := Or.inl hnew
  rw [horder, congrArg (ρ.placed m.keys) hsplit, placed_append, placed_cons, if_pos hplace,
    newName_of_not_mem hnew, List.singleton_append]

/-- A key that is still to be renamed has its own value, if no other one was renamed to it. -/
theorem Applied.lookup_eq (h : ρ.Applied m cur) (hkey : key ∈ m.keys) (hnew : key ∉ ρ.moved)
    (hapart : ∀ other ∈ ρ.moved, ρ.onto other ≠ key) : cur.lookup key = m.lookup key := by
  have hsource : ρ.source key = key := by
    have hnone : ρ.moved.filter (fun other => ρ.onto other = key) = [] :=
      List.filter_eq_nil_iff.mpr fun other hother => by simpa using hapart other hother
    rw [source, hnone]
    rfl
  rw [h.value key ((h.names key).mpr ⟨key, hkey, newName_of_not_mem hnew⟩), hsource]

/-- **One entry more is renamed.** -/
theorem Applied.step (h : ρ.Applied m cur) (hm : m.keys.Nodup) (hmoved : ρ.moved ⊆ m.keys)
    (hkey : key ∈ m.keys) (hnew : key ∉ ρ.moved)
    (hapart : ∀ other ∈ ρ.moved, ρ.onto other ≠ key) :
    (ρ.also key).Applied m (cur.rename key (ρ.onto key)) := by
  have hthere : key ∈ cur.keys := (h.names key).mpr ⟨key, hkey, newName_of_not_mem hnew⟩
  refine Applied.of_order hm ?moved ?order ?value
  case moved => exact List.append_subset.mpr ⟨hmoved, List.cons_subset.mpr ⟨hkey, List.nil_subset _⟩⟩
  case order =>
    obtain ⟨front, behind, hsplit⟩ := List.append_of_mem hkey
    have hothers : key ∉ front ++ behind := by
      rw [hsplit] at hm
      exact (List.nodup_cons.mp (List.nodup_middle.mp hm)).1
    obtain ⟨hfront, hbehind⟩ := not_or.mp (mt List.mem_append.mpr hothers)
    have hplaced : (ρ.also key).placed m.keys m.keys = ρ.placed m.keys front ++
        ((if (ρ.also key).HoldsPlace m.keys key then [ρ.onto key] else []) ++
          ρ.placed m.keys behind) := by
      rw [congrArg ((ρ.also key).placed m.keys) hsplit, placed_append, placed_cons,
        placed_also hapart hfront, placed_also hapart hbehind, newName_also_self]
    refine (Mapping.keys_rename h.distinct (h.keys_split hsplit hnew) _).trans
      (Eq.trans ?_ hplaced.symm)
    have htaken := h.taken_iff hmoved hnew hapart
    by_cases hholds : (ρ.also key).HoldsPlace m.keys key
    · rw [if_pos hholds, if_neg fun hname => htaken.mp hname hholds]
    · rw [if_neg hholds, if_pos (htaken.mpr hholds)]
  case value =>
    intro name hname
    by_cases hself : name = ρ.onto key
    · obtain ⟨v, hv⟩ := Mapping.exists_lookup_of_mem_keys hkey
      have hvalue : cur.lookup key = some v := (h.lookup_eq hkey hnew hapart).trans hv
      rw [hself, source_also_self, hv, Mapping.lookup_rename_self hvalue]
    · obtain ⟨hne, hold⟩ := (Mapping.mem_keys_of_rename h.distinct hthere hname).resolve_left hself
      rw [source_also_of_ne hself, Mapping.lookup_rename_of_ne hself hne, h.value name hold]

/-- **All keys of a list are renamed**, one after the other, if none of them is renamed to
another one. -/
theorem Applied.run {onto : String → String} {moved todo : List String}
    (h : Applied ⟨moved, onto⟩ m cur) (hm : m.keys.Nodup) (hkeys : moved ++ todo ⊆ m.keys)
    (hnodup : (moved ++ todo).Nodup) (hapart : Apart ⟨moved ++ todo, onto⟩) :
    Applied ⟨moved ++ todo, onto⟩ m
      (todo.foldl (fun cur key => if onto key = key then cur else cur.rename key (onto key)) cur) := by
  induction todo generalizing moved cur with
  | nil => rwa [List.append_nil]
  | cons key rest ih =>
      have hthere : key ∈ moved ++ key :: rest := List.mem_append_right _ List.mem_cons_self
      have hnew : key ∉ moved := fun hmem =>
        (List.nodup_append.mp hnodup).2.2 key hmem key List.mem_cons_self rfl
      have hothers : ∀ other ∈ moved, onto other ≠ key := by
        rintro other hother rfl
        have hself : onto other = other :=
          hapart other (List.mem_append_left _ hother) hthere
        exact hnew (hself.symm ▸ hother)
      have hstep : Applied ⟨moved ++ [key], onto⟩ m (cur.rename key (onto key)) :=
        h.step hm (fun other hother => hkeys (List.mem_append_left _ hother)) (hkeys hthere)
          hnew hothers
      -- where a key has its name already, renaming it would change nothing
      have hnext : (if onto key = key then cur else cur.rename key (onto key)) =
          cur.rename key (onto key) := by
        split
        · next hself =>
            have hkey : key ∈ cur.keys :=
              (h.names key).mpr ⟨key, hkeys hthere, newName_of_not_mem hnew⟩
            rw [hself, Mapping.rename_self h.distinct hkey]
        · rfl
      rw [List.append_cons] at hkeys hnodup hapart ⊢
      rw [List.foldl_cons, hnext]
      exact ih hstep hkeys hnodup hapart

end Renaming

namespace Mapping

/-- The renaming of the keys that hold placeholders. -/
def placeholderRenaming (m : Mapping) (name : String → String) : Renaming :=
  ⟨m.keys.filter Placeholder.contains, name⟩

/-- Gives every key that holds a placeholder its name, one after the other. -/
def renameAll (name : String → String) (m : Mapping) : Mapping :=
  (m.keys.filter Placeholder.contains).foldl
    (fun cur key => if name key = key then cur else cur.rename key (name key)) m

/-- Renaming brings in no value, however many keys are renamed. -/
theorem exists_of_mem_renameAll {name : String → String} {m : Mapping} {entry : String × Value}
    (h : entry ∈ m.renameAll name) : ∃ old ∈ m, entry.2 = old.2 := by
  have hrun : ∀ (keys : List String) (cur : Mapping),
      entry ∈ keys.foldl (fun cur key => if name key = key then cur else
        cur.rename key (name key)) cur → ∃ old ∈ cur, entry.2 = old.2 := by
    intro keys
    induction keys with
    | nil => exact fun cur hentry => ⟨entry, hentry, rfl⟩
    | cons key rest ih =>
        intro cur hentry
        obtain ⟨old, hold, heq⟩ := ih _ hentry
        dsimp only at hold
        split at hold
        · exact ⟨old, hold, heq⟩
        · obtain ⟨first, hfirst, hsame⟩ := exists_of_mem_rename hold
          exact ⟨first, hfirst, heq.trans hsame⟩
  exact hrun _ m h

/-- **Keys are renamed in place**, if none that holds a placeholder is renamed to another one
that does. -/
theorem applied_renameAll {m : Mapping} (hm : m.keys.Nodup) {name : String → String}
    (hapart : (m.placeholderRenaming name).Apart) :
    (m.placeholderRenaming name).Applied m (m.renameAll name) :=
  (Renaming.applied_nil name hm).run hm (fun _ hkey => (List.mem_filter.mp hkey).1) (hm.filter _)
    hapart

end Mapping

end LayeredConfig
