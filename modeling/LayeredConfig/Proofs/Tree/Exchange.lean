import LayeredConfig.Proofs.Tree.Entries

/-!
# A container with another child

`Value.withChild` is a container after a value has been put at a step, and `Value.without` is
the container after the value there has been taken out.  What is put at a step is found there,
and the other steps lead where they led (`child?_withChild_self`, `child?_withChild_of_ne`).
The exception is an index next to a key: a key makes a mapping of what was a sequence
(`Segment.Displaces`).  A container with the child that it has is the container that it was
(`withChild_of_child?`).
-/

namespace LayeredConfig

/-- A write at the first step leaves nothing where the second one led: there is a mapping
now, and the second one is an index. -/
def Segment.Displaces : Segment → Segment → Prop
  | .key _, .index _ => True
  | _, _ => False

instance : (s t : Segment) → Decidable (s.Displaces t)
  | .key _, .index _ => isTrue trivial
  | .key _, .key _ => isFalse id
  | .index _, _ => isFalse id

namespace Value

/-- The value with another child one step down, where a write can get there. -/
def withChild : Value → Segment → Value → Value
  | v, .key name, child => map (v.entriesOrNone.insert name child)
  | seq items, .index i, child => seq (items.set i child)
  | v, .index _, _ => v

/-- The value without its child one step down. -/
def without : Value → Segment → Value
  | map entries, .key name => map (Mapping.erase entries name)
  | seq items, .index i => seq (items.eraseIdx i)
  | v, _ => v

/-- A write gets past a step: a key takes every value, an index only an item that is
there. -/
def Passes (v : Value) : Segment → Prop
  | .key _ => True
  | .index i => (v.child? (.index i)).isSome

variable {v child : Value} {s t : Segment}

/-- The entries that a write goes on with are those that a read finds. -/
theorem lookup_entriesOrNone (v : Value) (name : String) :
    v.entriesOrNone.lookup name = v.child? (.key name) := by
  cases v <;> rfl

/-- What is put at a step is found there. -/
theorem child?_withChild_self (h : v.Passes s) : (v.withChild s child).child? s = some child := by
  cases s with
  | key name => exact Mapping.lookup_insert_self
  | index i =>
      obtain ⟨items, rfl, hi⟩ := isSome_child?_index.mp h
      exact List.getElem?_set_self hi

/-- The other steps lead where they led, except for an index next to a key. -/
theorem child?_withChild_of_ne (hne : t ≠ s) :
    (v.withChild s child).child? t = if s.Displaces t then none else v.child? t := by
  cases s with
  | key name =>
      cases t with
      | key other =>
          have hother : other ≠ name := fun heq => hne (congrArg Segment.key heq)
          rw [withChild, child?, Mapping.lookup_insert_of_ne hother, lookup_entriesOrNone]
          exact (if_neg id).symm
      | index i => exact (if_pos trivial).symm
  | index i =>
      rw [if_neg (by cases t <;> exact id)]
      cases v with
      | seq items =>
          cases t with
          | key name => rfl
          | index j =>
              have hother : i ≠ j := fun heq => hne (congrArg Segment.index heq.symm)
              exact List.getElem?_set_ne hother
      | _ => rfl

/-- Next to a key that leads somewhere an index leads nowhere. -/
theorem child?_of_displaces (hchild : v.child? s = some child) (h : s.Displaces t) :
    v.child? t = none := by
  rcases child?_cases hchild with ⟨entries, name, rfl, rfl, -⟩ | ⟨items, i, rfl, rfl, -⟩
  · cases t with
    | key other => exact absurd h id
    | index i => rfl
  · cases t <;> exact absurd h id

/-- A container with the child that it has. -/
theorem withChild_of_child? (h : v.child? s = some child) : v.withChild s child = v := by
  rcases child?_cases h with ⟨entries, name, rfl, rfl, hchild⟩ | ⟨items, i, rfl, rfl, hchild⟩
  · exact congrArg map (Mapping.insert_of_lookup hchild)
  · obtain ⟨hi, hitem⟩ := List.getElem?_eq_some_iff.mp hchild
    rw [withChild, ← hitem, List.set_getElem_self]

/-- Exchanging a child that is there changes no keys. -/
theorem keys_withChild_of_child? (h : v.child? s = some child) (w : Value) :
    (v.withChild s w).entriesOrNone.keys = v.entriesOrNone.keys := by
  rcases child?_cases h with ⟨entries, name, rfl, rfl, hchild⟩ | ⟨items, i, rfl, rfl, -⟩
  · exact Mapping.keys_insert_of_mem (List.mem_map.mpr ⟨_, Mapping.mem_of_lookup hchild, rfl⟩)
  · rfl

/-- A child that is there lets a write pass. -/
theorem passes_of_child? (h : v.child? s = some child) : v.Passes s := by
  cases s with
  | key name => trivial
  | index i => exact Option.isSome_of_mem h

/-- A well-formed value with another well-formed child is well formed. -/
theorem WellFormed.withChild (hv : v.WellFormed) (hchild : child.WellFormed) :
    (v.withChild s child).WellFormed := by
  cases s with
  | key name =>
      have hentries : (Value.map v.entriesOrNone).WellFormed := by
        cases v with
        | map entries => exact hv
        | _ => exact wellFormed_map.mpr ⟨List.nodup_nil, nofun⟩
      exact Mapping.wellFormed_insert hentries hchild
  | index i =>
      cases v with
      | seq items =>
          refine wellFormed_seq.mpr fun w hw => ?_
          rcases List.mem_or_eq_of_mem_set hw with hold | rfl
          · exact wellFormed_seq.mp hv w hold
          · exact hchild
      | _ => exact hv

end Value

end LayeredConfig
