import LayeredConfig.Proofs.Path.Keys
import LayeredConfig.Proofs.Tree.Exchange

/-!
# Writing along a path

A write goes down step by step.  A key takes every value, and makes a mapping of what is
none; an index asks for an item that is there.  So a write gets through exactly if every
index of its path leads to an item of the tree as it was (`failure_write`), and then

* the value stands at the path (`at?_write_self`);
* at a path that parts from it nothing has changed, or nothing is left, if a key has made a
  mapping of what was a sequence (`at?_write_of_parts`);
* the keys on the way keep their places, and one that is new goes last (`keys_write`).

A write that is stopped by an index has made way for it, and no more: it leaves the tree as it
was, if there is a value in front of the index, and else the tree with a null there
(`result_write_of_stopped`).

Along a path of keys a write always gets through (`write_ofKeys`), and a write into a
well-formed tree leaves a well-formed one, by whatever path.
-/

namespace LayeredConfig

/-- Two lists neither of which leads on from the other part at some element. -/
theorem exists_parting {α : Type} {p q : List α} (hp : ¬ p <+: q) (hq : ¬ q <+: p) :
    ∃ r s t p' q', t ≠ s ∧ p = r ++ s :: p' ∧ q = r ++ t :: q' := by
  induction p generalizing q with
  | nil => exact absurd List.nil_prefix hp
  | cons s p ih =>
      cases q with
      | nil => exact absurd List.nil_prefix hq
      | cons t q =>
          by_cases hst : t = s
          · subst hst
            have hp' : ¬ p <+: q := fun h => hp (List.cons_prefix_cons.mpr ⟨rfl, h⟩)
            have hq' : ¬ q <+: p := fun h => hq (List.cons_prefix_cons.mpr ⟨rfl, h⟩)
            obtain ⟨r, s', t', p', q', hne, rfl, rfl⟩ := ih hp' hq'
            exact ⟨t :: r, s', t', p', q', hne, rfl, rfl⟩
          · exact ⟨[], s, t, p, q, hst, rfl, rfl⟩

namespace Value

/-- The value has a sequence at the path, with an item of the index. -/
def HasItem (v : Value) (q : Path) (i : Nat) : Prop :=
  ∃ items, v.at? q = some (.seq items) ∧ i < items.length

/-- Every index of the path leads to an item that is there. -/
def Admits (v : Value) (p : Path) : Prop :=
  ∀ q i rest, p = q ++ .index i :: rest → v.HasItem q i

/-- The keys of the mapping at the path.  Where no mapping stands, there are none. -/
def keysAt (v : Value) (q : Path) : List String :=
  ((v.at? q).getD .null).entriesOrNone.keys

section Write

variable {v new w : Value} {s t : Segment} {p q r rest : Path} {i : Nat}

theorem hasItem_nil : v.HasItem [] i ↔ v.Passes (.index i) := by
  refine Iff.trans ?_ isSome_child?_index.symm
  exact exists_congr fun items => and_congr_left' (Option.some_inj)

theorem hasItem_cons : v.HasItem (s :: q) i ↔ ((v.child? s).getD .null).HasItem q i := by
  refine exists_congr fun items => and_congr_left' ?_
  rw [at?_cons]
  cases v.child? s with
  | some child => rfl
  | none => cases q <;> simp [at?, at?_null_cons]

/-- A path is admitted if the first step lets a write pass and the value behind it admits
the rest. -/
theorem admits_cons :
    v.Admits (s :: rest) ↔ v.Passes s ∧ ((v.child? s).getD .null).Admits rest := by
  constructor
  · intro h
    refine ⟨?_, fun q i rest' heq => hasItem_cons.mp (h (s :: q) i rest' ?_)⟩
    · cases s with
      | key name => trivial
      | index i => exact hasItem_nil.mp (h [] i rest rfl)
    · rw [heq, List.cons_append]
  · rintro ⟨hpass, hrest⟩ q i rest' heq
    cases q with
    | nil =>
        obtain ⟨rfl, -⟩ := List.cons.inj heq
        exact hasItem_nil.mpr hpass
    | cons t q =>
        obtain ⟨rfl, hrest'⟩ := List.cons.inj heq
        exact hasItem_cons.mpr (hrest q i rest' hrest')

/-- The way to a step that is admitted is admitted, and the step lets a write pass. -/
theorem admits_append_cons :
    v.Admits (r ++ s :: p) → v.Admits r ∧ ((v.at? r).getD .null).Passes s := by
  intro h
  refine ⟨fun q i rest heq => h q i (rest ++ s :: p) (by simp [heq]), ?_⟩
  cases s with
  | key name => trivial
  | index i =>
      obtain ⟨items, hat, hi⟩ := h r i p rfl
      rw [hat]
      exact isSome_child?_index.mpr ⟨items, rfl, hi⟩

/-- A way that leads somewhere is admitted. -/
theorem admits_of_at? (h : v.at? p = some w) : v.Admits p := by
  rintro q i rest rfl
  rw [at?_append] at h
  obtain ⟨u, hu, hrest⟩ := Option.bind_eq_some_iff.mp h
  obtain ⟨child, hchild, -⟩ := exists_child_of_at? hrest
  obtain ⟨items, rfl, hi⟩ := isSome_child?_index.mp (Option.isSome_of_mem hchild)
  exact ⟨items, hu, hi⟩

/-- A path that is not admitted has a first index that leads to no item. -/
theorem exists_first_stop (h : ¬ v.Admits p) :
    ∃ q i rest, p = q ++ .index i :: rest ∧ v.Admits q ∧ ¬ v.HasItem q i := by
  induction p generalizing v with
  | nil => exact absurd (fun q i rest heq => by simp at heq) h
  | cons s rest ih =>
      by_cases hpass : v.Passes s
      · have hrest : ¬ ((v.child? s).getD .null).Admits rest :=
          fun hrest => h (admits_cons.mpr ⟨hpass, hrest⟩)
        obtain ⟨q, i, rest', rfl, hadmits, hstop⟩ := ih hrest
        exact ⟨s :: q, i, rest', rfl, admits_cons.mpr ⟨hpass, hadmits⟩,
          fun hitem => hstop (hasItem_cons.mp hitem)⟩
      · cases s with
        | key name => exact absurd trivial hpass
        | index i =>
            exact ⟨[], i, rest, rfl, fun q j rest' heq => by simp at heq,
              fun hitem => hpass (hasItem_nil.mp hitem)⟩

/-! ## One step of a write -/

/-- A write past a step is a write into the child. -/
theorem write_cons (h : v.Passes s) (rest : Path) (new : Value) :
    v.write (s :: rest) new =
      (((v.child? s).getD .null).write rest new).map (v.withChild s) := by
  cases s with
  | key name =>
      rw [write, lookup_entriesOrNone]
      rfl
  | index i =>
      obtain ⟨items, rfl, hi⟩ := isSome_child?_index.mp h
      have hitem : items[i]? = some items[i] := List.getElem?_eq_getElem hi
      rw [write, child?, hitem]
      rfl

/-- A write that does not pass its first step leaves the value. -/
theorem write_of_not_passes (h : ¬ v.Passes s) (rest : Path) (new : Value) :
    ∃ cause, v.write (s :: rest) new = .stop v cause := by
  cases s with
  | key name => exact absurd trivial h
  | index i =>
      cases v with
      | seq items =>
          have hitem : items[i]? = none := by
            rw [Passes, child?, Option.not_isSome_iff_eq_none] at h
            exact h
          exact ⟨.outOfBounds i items.length, by rw [write, hitem]⟩
      | _ => exact ⟨_, rfl⟩

/-! ## The whole way -/

/-- **A write gets through** exactly along a path that is admitted. -/
theorem failure_write : (v.write p new).failure = none ↔ v.Admits p := by
  induction p generalizing v with
  | nil => exact ⟨fun _ q i rest heq => by simp at heq, fun _ => by rw [write]; rfl⟩
  | cons s rest ih =>
      rw [admits_cons]
      by_cases hpass : v.Passes s
      · rw [write_cons hpass, Edited.failure_map, ih]
        exact ⟨fun h => ⟨hpass, h⟩, And.right⟩
      · obtain ⟨cause, hstop⟩ := write_of_not_passes hpass rest new
        rw [hstop]
        exact ⟨fun h => absurd h (Option.some_ne_none _), fun h => absurd h.1 hpass⟩

/-- **What is written is found.** -/
theorem at?_write_self (h : v.Admits p) (new : Value) :
    (v.write p new).result.at? p = some new := by
  induction p generalizing v with
  | nil => rw [write]; rfl
  | cons s rest ih =>
      obtain ⟨hpass, hrest⟩ := admits_cons.mp h
      rw [write_cons hpass, Edited.result_map, at?_cons, child?_withChild_self hpass]
      exact ih hrest

/-- **Writing what is there** changes nothing. -/
theorem result_write_of_at? (h : v.at? p = some w) : (v.write p w).result = v := by
  induction p generalizing v with
  | nil =>
      rw [write]
      exact (Option.some.inj h).symm
  | cons s rest ih =>
      obtain ⟨hpass, -⟩ := admits_cons.mp (admits_of_at? h)
      obtain ⟨child, hchild, hrest⟩ := exists_child_of_at? h
      rw [write_cons hpass, hchild, Edited.result_map, Option.getD_some, ih hrest]
      exact withChild_of_child? hchild

/-- **A write goes on from any node on its way**: what it leaves is what a write into that
node leaves, written there. -/
theorem result_write_append (h : v.Admits r) (p : Path) (new : Value) :
    (v.write (r ++ p) new).result =
      (v.write r (((v.at? r).getD .null).write p new).result).result := by
  induction r generalizing v with
  | nil =>
      rw [write]
      rfl
  | cons s r ih =>
      obtain ⟨hpass, hrest⟩ := admits_cons.mp h
      rw [List.cons_append, write_cons hpass, write_cons hpass, Edited.result_map,
        Edited.result_map, ih hrest, getD_at?_cons]

/-- What a write leaves at a node on its way. -/
theorem at?_write_append (h : v.Admits r) (p : Path) (new : Value) :
    (v.write (r ++ p) new).result.at? r =
      some (((v.at? r).getD .null).write p new).result := by
  rw [result_write_append h]
  exact at?_write_self h _

/-- **A path that parts** from the one that is written leads where it led, except for an
index next to a key. -/
theorem at?_write_of_parts (h : v.Admits (r ++ s :: p)) (hne : t ≠ s) (q : Path)
    (new : Value) :
    (v.write (r ++ s :: p) new).result.at? (r ++ t :: q) =
      if s.Displaces t then none else v.at? (r ++ t :: q) := by
  obtain ⟨hfront, hpass⟩ := admits_append_cons h
  rw [at?_append, at?_write_append hfront, Option.bind_some, write_cons hpass,
    Edited.result_map, at?_cons, child?_withChild_of_ne hne]
  split
  · rfl
  · rw [at?_append]
    cases v.at? r with
    | none => exact (at?_cons ..).symm.trans (at?_null_cons t q)
    | some w => exact (at?_cons ..).symm

/-- **The keys on the way** of a write keep their places, and a new one goes last. -/
theorem keysAt_write {name : String} (h : v.Admits (r ++ .key name :: p)) (new : Value) :
    (v.write (r ++ .key name :: p) new).result.keysAt r =
      if name ∈ v.keysAt r then v.keysAt r else v.keysAt r ++ [name] := by
  rw [keysAt, at?_write_append (admits_append_cons h).1]
  split
  · next hmem => exact Mapping.keys_insert_of_mem hmem
  · next hmem => exact Mapping.keys_insert_of_not_mem hmem

/-- Where a write only exchanges nodes, every path that parts from it leads where it led. -/
theorem at?_write_of_parts_of_at? (h : v.at? (r ++ s :: p) = some w) (hne : t ≠ s) (q : Path)
    (new : Value) :
    (v.write (r ++ s :: p) new).result.at? (r ++ t :: q) = v.at? (r ++ t :: q) := by
  rw [at?_write_of_parts (admits_of_at? h) hne]
  split
  · next hdisplaces =>
      rw [at?_append] at h
      obtain ⟨u, hu, hbelow⟩ := Option.bind_eq_some_iff.mp h
      obtain ⟨child, hchild, -⟩ := exists_child_of_at? hbelow
      rw [at?_append, hu, Option.bind_some, at?_cons, child?_of_displaces hchild hdisplaces]
      rfl
  · rfl

/-- Where a write only exchanges nodes, it changes no keys on its way. -/
theorem keysAt_write_of_at? (h : v.at? (r ++ s :: p) = some w) (new : Value) :
    (v.write (r ++ s :: p) new).result.keysAt r = v.keysAt r := by
  rw [keysAt, at?_write_append (admits_append_cons (admits_of_at? h)).1, Option.getD_some, keysAt]
  rw [at?_append] at h
  obtain ⟨u, hu, hbelow⟩ := Option.bind_eq_some_iff.mp h
  obtain ⟨child, hchild, -⟩ := exists_child_of_at? hbelow
  rw [hu, Option.getD_some, write_cons (passes_of_child? hchild)]
  exact keys_withChild_of_child? hchild _

/-- **A write that is stopped** by an index has made way for it, and no more. -/
theorem result_write_of_stopped (h : v.Admits q) (hstop : ¬ v.HasItem q i) (rest : Path)
    (new : Value) :
    (v.write (q ++ .index i :: rest) new).result =
      if (v.at? q).isSome then v else (v.write q .null).result := by
  have hpass : ¬ ((v.at? q).getD .null).Passes (.index i) := by
    intro hpass
    obtain ⟨items, hitems, hi⟩ := isSome_child?_index.mp hpass
    cases hat : v.at? q with
    | none => simp [hat] at hitems
    | some w =>
        rw [hat] at hitems
        exact hstop ⟨items, hitems ▸ hat, hi⟩
  obtain ⟨cause, hwrite⟩ := write_of_not_passes hpass rest new
  rw [result_write_append h, hwrite]
  cases hat : v.at? q with
  | none => rfl
  | some w => exact result_write_of_at? hat

end Write

end Value

namespace Value

/-! ## Along keys -/

/-- The node under the first key of a path, and the rest of the path. -/
theorem at?_ofKeys_cons {entries : Mapping} {name : String} {names : List String} :
    (Value.map entries).at? (Path.ofKeys (name :: names)) =
      (entries.lookup name).bind fun child => child.at? (Path.ofKeys names) :=
  at?_cons ..

/-- Only a mapping has a node under a key. -/
theorem eq_map_of_at?_ofKeys {v w : Value} {name : String} {names : List String}
    (h : v.at? (Path.ofKeys (name :: names)) = some w) : ∃ entries, v = .map entries := by
  cases v with
  | map entries => exact ⟨entries, rfl⟩
  | _ => simp [Path.ofKeys, at?] at h

/-- A path of keys asks for no item. -/
theorem admits_ofKeys (v : Value) (names : List String) : v.Admits (Path.ofKeys names) := by
  intro q i rest heq
  have hmem : Segment.index i ∈ Path.ofKeys names := by simp [heq]
  simp [Path.ofKeys] at hmem

/-- **A write along keys** finishes, puts the value where the path leads, and changes nothing
at paths that part from it. -/
theorem write_ofKeys (names : List String) (v new : Value) :
    ∃ w, v.write (Path.ofKeys names) new = .done w ∧ w.at? (Path.ofKeys names) = some new ∧
      ∀ others : List String, ¬ names <+: others → ¬ others <+: names →
        w.at? (Path.ofKeys others) = v.at? (Path.ofKeys others) := by
  have hadmits := admits_ofKeys v names
  refine ⟨_, Edited.eq_done (failure_write.mpr hadmits), at?_write_self hadmits new,
    fun others hnot hnot' => ?_⟩
  obtain ⟨front, name, other, names', others', hne, rfl, rfl⟩ := exists_parting hnot hnot'
  have hsplit : ∀ name names', Path.ofKeys (front ++ name :: names') =
      Path.ofKeys front ++ .key name :: Path.ofKeys names' := by
    simp [Path.ofKeys]
  have hkey : Segment.key other ≠ .key name := fun heq => hne (Segment.key.inj heq)
  rw [hsplit] at hadmits
  rw [hsplit, hsplit, at?_write_of_parts hadmits hkey]
  exact if_neg id

/-! ## Well-formed trees -/

/-- A write into a well-formed value leaves a well-formed one, also if it stops. -/
theorem WellFormed.write {v new : Value} (hv : v.WellFormed) (hnew : new.WellFormed) (p : Path) :
    (v.write p new).result.WellFormed := by
  induction p generalizing v with
  | nil =>
      rw [Value.write]
      exact hnew
  | cons s rest ih =>
      by_cases hpass : v.Passes s
      · have hchild : ((v.child? s).getD .null).WellFormed := by
          cases hold : v.child? s with
          | none => trivial
          | some child => exact hv.child? hold
        rw [write_cons hpass]
        exact hv.withChild (ih hchild)
      · obtain ⟨cause, hstop⟩ := write_of_not_passes hpass rest new
        rw [hstop]
        exact hv

end Value

namespace Mapping

theorem get?_ofKeys_cons {tree : Mapping} {name : String} {names : List String} :
    tree.get? (Path.ofKeys (name :: names)) =
      (Value.map tree).at? (Path.ofKeys (name :: names)) :=
  if_neg (by simp [Path.ofKeys])

/-- A tree has no node at the path without steps. -/
theorem ofKeys_ne_nil {tree : Mapping} {names : List String} {v : Value}
    (h : tree.get? (Path.ofKeys names) = some v) : ∃ name rest, names = name :: rest := by
  cases names with
  | nil => contradiction
  | cons name rest => exact ⟨name, rest, rfl⟩

/-- **A tree after a write along keys.** -/
theorem set_ofKeys (tree : Mapping) (name : String) (names : List String) (new : Value) :
    ∃ out, tree.set (Path.ofKeys (name :: names)) new = .done out ∧
      out.get? (Path.ofKeys (name :: names)) = some new ∧
      ∀ others : List String, ¬ name :: names <+: others → ¬ others <+: name :: names →
        out.get? (Path.ofKeys others) = tree.get? (Path.ofKeys others) := by
  obtain ⟨w, hwrite, hself, hframe⟩ := Value.write_ofKeys (name :: names) (.map tree) new
  obtain ⟨out, rfl⟩ := Value.eq_map_of_at?_ofKeys hself
  refine ⟨out, ?_, ?_, fun others hnot hnot' => ?_⟩
  · rw [set, if_neg (by simp [Path.ofKeys]), hwrite]
    rfl
  · rw [get?_ofKeys_cons]
    exact hself
  · cases others with
    | nil => rfl
    | cons other others =>
        rw [get?_ofKeys_cons, get?_ofKeys_cons]
        exact hframe _ hnot hnot'

/-- A write into a well-formed tree leaves a well-formed one. -/
theorem wellFormed_set {tree : Mapping} {new : Value} (htree : (Value.map tree).WellFormed)
    (hnew : new.WellFormed) (p : Path) :
    (Value.map (tree.set p new).result).WellFormed := by
  rw [set]
  split
  · exact htree
  · have hwrite := htree.write hnew p
    change (Value.map ((Value.map tree).write p new).result.entriesOrNone).WellFormed
    cases hresult : ((Value.map tree).write p new).result with
    | map entries => exact hresult ▸ hwrite
    | _ => exact Value.wellFormed_map.mpr ⟨List.nodup_nil, nofun⟩

end Mapping

end LayeredConfig
