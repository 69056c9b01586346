import LayeredConfig.Proofs.Tree.Write

/-!
# Setting a node of a tree

`Mapping.set` writes one node of a tree.  It gets through unless the path is the root or an
index of it leads to no item, and whether it does can be read off the tree as it was: every
index needs a sequence in front of it that is longer.

`Mapping.set_writes_one_node` says what is left.  After a write that got through the value
stands at the path, all paths that part from it lead where they led, and no key has changed
its place (`Mapping.Written`).  A write that was stopped leaves the tree as it was, unless
keys in front of the first index without an item lead nowhere: those have been made, down
to a null.
-/

namespace LayeredConfig

namespace Mapping

/-- The tree `out` is `tree` with `new` written at the path `p`, and nothing else done to
it. -/
structure Written (tree : Mapping) (p : Path) (new : Value) (out : Mapping) : Prop where
  found : out.get? p = some new
  /-- A path that parts from `p` leads where it led.  An index at which `p` has a key leads
  nowhere. -/
  parted : ∀ r s t p' q, p = r ++ s :: p' → t ≠ s →
    out.get? (r ++ t :: q) = if s.Displaces t then none else tree.get? (r ++ t :: q)
  /-- A key of `p` keeps its place among the others, or goes last if it is new. -/
  keys : ∀ r name p', p = r ++ .key name :: p' →
    (Value.map out).keysAt r =
      if name ∈ (Value.map tree).keysAt r then (Value.map tree).keysAt r
      else (Value.map tree).keysAt r ++ [name]

variable {tree out : Mapping} {p q : Path} {new : Value}

theorem get?_of_ne_nil (hp : p ≠ []) : tree.get? p = (Value.map tree).at? p :=
  if_neg fun hempty => hp (List.isEmpty_iff.mp hempty)

/-- A node of a tree stands at its path in the root. -/
theorem at?_of_get? {v : Value} (h : tree.get? p = some v) : (Value.map tree).at? p = some v := by
  cases p with
  | nil => contradiction
  | cons s rest => exact h

/-- A tree without entries has no nodes. -/
theorem get?_nil (p : Path) : get? [] p = none := by
  cases p with
  | nil => rfl
  | cons s rest => cases s <;> rfl

/-- What is left of a tree after a write is a tree. -/
theorem exists_map_write (tree : Mapping) (hp : p ≠ []) (new : Value) :
    ∃ out, ((Value.map tree).write p new).result = .map out := by
  cases p with
  | nil => contradiction
  | cons s rest =>
      by_cases hpass : (Value.map tree).Passes s
      · rw [Value.write_cons hpass]
        cases s with
        | key name => exact ⟨_, rfl⟩
        | index i => exact ⟨tree, rfl⟩
      · obtain ⟨cause, hstop⟩ := Value.write_of_not_passes hpass rest new
        exact ⟨tree, by rw [hstop]; rfl⟩

/-- Setting a node is a write into the root. -/
theorem set_eq_write (tree : Mapping) (hp : p ≠ []) (new : Value) :
    ((tree.set p new).failure = none ↔ (Value.map tree).Admits p) ∧
      ((Value.map tree).write p new).result = .map (tree.set p new).result := by
  have hset : tree.set p new = (((Value.map tree).write p new).map
      Value.entriesOrNone).mapFailure fun cause => ⟨p, cause⟩ :=
    if_neg fun hempty => hp (List.isEmpty_iff.mp hempty)
  obtain ⟨out, hout⟩ := exists_map_write tree hp new
  rw [hset]
  refine ⟨Iff.trans Option.map_eq_none_iff Value.failure_write, ?_⟩
  rw [Edited.mapFailure, Edited.result_map, hout]
  rfl

/-- A tree after a write that got through. -/
theorem written_of_set (hdone : (tree.set p new).failure = none) :
    tree.Written p new (tree.set p new).result := by
  have hp : p ≠ [] := by
    rintro rfl
    exact absurd hdone (Option.some_ne_none _)
  obtain ⟨hfailure, hresult⟩ := set_eq_write tree hp new
  have hadmits := hfailure.mp hdone
  refine ⟨?_, fun r s t p' q heq hne => ?_, fun r name p' heq => ?_⟩
  · rw [get?_of_ne_nil hp, ← hresult]
    exact Value.at?_write_self hadmits new
  · subst heq
    rw [get?_of_ne_nil (by simp), get?_of_ne_nil (by simp), ← hresult]
    exact Value.at?_write_of_parts hadmits hne q new
  · subst heq
    rw [← hresult]
    exact Value.keysAt_write hadmits new

/-- **Every node of a tree after a write** stands at the path or below it, or on the way there
as a mapping or where a sequence stood, or it was there before. -/
theorem get?_of_set (hdone : (tree.set p new).failure = none) {r : Path} {w : Value}
    (h : (tree.set p new).result.get? r = some w) :
    p <+: r ∨ (r <+: p ∧ ((∃ m, w = .map m) ∨ ∃ items, tree.get? r = some (.seq items))) ∨
      tree.get? r = some w := by
  have hwritten := written_of_set hdone
  have hp : p ≠ [] := by
    rintro rfl
    exact absurd hdone (Option.some_ne_none _)
  have hr : r ≠ [] := by
    rintro rfl
    contradiction
  by_cases hbelow : p <+: r
  · exact Or.inl hbelow
  by_cases hway : r <+: p
  · obtain ⟨rest, rfl⟩ := hway
    refine Or.inr (Or.inl ⟨List.prefix_append .., ?_⟩)
    cases rest with
    | nil => exact absurd (by simp) hbelow
    | cons s rest =>
        have hfound := hwritten.found
        rw [get?_of_ne_nil hp, Value.at?_append, ← get?_of_ne_nil hr, h, Option.bind_some] at hfound
        obtain ⟨child, hchild, -⟩ := Value.exists_child_of_at? hfound
        rcases Value.child?_cases hchild with ⟨m, -, rfl, -⟩ | ⟨-, i, -, rfl, -⟩
        · exact Or.inl ⟨m, rfl⟩
        · -- an index only passes what was a sequence already
          obtain ⟨items, hitems, -⟩ := (set_eq_write tree hp new).1.mp hdone r i rest rfl
          exact Or.inr ⟨items, (get?_of_ne_nil hr).trans hitems⟩
  · obtain ⟨front, s, t, p', q', hne, rfl, rfl⟩ := exists_parting hbelow hway
    rw [hwritten.parted front s t p' q' rfl hne] at h
    split at h
    · contradiction
    · exact Or.inr (Or.inr h)

/-- A path without indices that parts from the one that is written leads where it led. -/
theorem get?_set_of_parts (hdone : (tree.set p new).failure = none) (hp : ¬ p <+: q)
    (hq : ¬ q <+: p) (hkeys : ∀ i, Segment.index i ∉ q) :
    (tree.set p new).result.get? q = tree.get? q := by
  obtain ⟨front, s, t, p', q', hne, rfl, rfl⟩ := exists_parting hp hq
  rw [(written_of_set hdone).parted front s t p' q' rfl hne]
  refine if_neg fun hdisplaces => ?_
  cases t with
  | key name => cases s <;> exact hdisplaces
  | index i => exact hkeys i (by simp)

/-- A tree after a write that an index has stopped. -/
theorem result_set_of_stopped {i : Nat} {rest : Path} (hadmits : (Value.map tree).Admits q)
    (hitem : ¬ (Value.map tree).HasItem q i) :
    (q = [] ∨ (tree.get? q).isSome → (tree.set (q ++ .index i :: rest) new).result = tree) ∧
    (q ≠ [] → tree.get? q = none →
      tree.set q .null = .done (tree.set (q ++ .index i :: rest) new).result) := by
  obtain ⟨-, hresult⟩ := set_eq_write tree (p := q ++ .index i :: rest) (by simp) new
  have hleft := Value.result_write_of_stopped hadmits hitem rest new
  rw [hresult] at hleft
  refine ⟨fun hthere => ?_, fun hq hnone => ?_⟩
  · have hthere' : ((Value.map tree).at? q).isSome := by
      by_cases hq : q = []
      · subst hq
        rfl
      · rw [← get?_of_ne_nil hq]
        exact hthere.resolve_left hq
    rw [if_pos hthere'] at hleft
    exact Value.map.inj hleft
  · obtain ⟨hnull, hresult'⟩ := set_eq_write tree hq .null
    have hgone : ¬ ((Value.map tree).at? q).isSome := by
      rw [← get?_of_ne_nil hq, hnone]
      exact Bool.false_ne_true
    rw [if_neg hgone, hresult'] at hleft
    rw [Value.map.inj hleft]
    exact Edited.eq_done (hnull.mpr hadmits)

/-- **A node is set** if the path is not the root and each of its indices leads to an item.
Then the value stands there, and nothing else has changed.  Else the tree is left as it was,
unless the way to the first index without an item leads nowhere: then it is left with a null
in front of that index. -/
theorem set_writes_one_node (tree : Mapping) (p : Path) (new : Value) :
    ((tree.set p new).failure = none ↔
      p ≠ [] ∧ ∀ q i rest, p = q ++ .index i :: rest → (Value.map tree).HasItem q i) ∧
    ((tree.set p new).failure = none → tree.Written p new (tree.set p new).result) ∧
    ((tree.set p new).failure ≠ none →
      p = [] ∧ (tree.set p new).result = tree ∨
      ∃ q i rest, p = q ++ .index i :: rest ∧ ¬ (Value.map tree).HasItem q i ∧
        (∀ q' j rest', q = q' ++ .index j :: rest' → (Value.map tree).HasItem q' j) ∧
        (q = [] ∨ (tree.get? q).isSome → (tree.set p new).result = tree) ∧
        (q ≠ [] → tree.get? q = none → tree.set q .null = .done (tree.set p new).result)) := by
  by_cases hp : p = []
  · subst hp
    have hroot : (tree.set [] new).failure ≠ none := Option.some_ne_none _
    exact ⟨⟨fun h => absurd h hroot, fun h => absurd rfl h.1⟩, fun h => absurd h hroot,
      fun _ => Or.inl ⟨rfl, rfl⟩⟩
  · obtain ⟨hfailure, -⟩ := set_eq_write tree hp new
    refine ⟨hfailure.trans ⟨fun h => ⟨hp, h⟩, And.right⟩, written_of_set, fun hstop => ?_⟩
    obtain ⟨q, i, rest, rfl, hadmits, hitem⟩ :=
      Value.exists_first_stop (hstop ∘ hfailure.mpr)
    exact Or.inr ⟨q, i, rest, rfl, hitem, hadmits, result_set_of_stopped hadmits hitem⟩

/-- An index below a key that is missing leaves a null under the key. -/
example : Mapping.set [("a", .map [])] [.key "a", .key "q", .index 0] (.bool true) =
    .stop [("a", .map [("q", .null)])]
      ⟨[.key "a", .key "q", .index 0], .notASequence 0 .null⟩ := rfl

end Mapping

end LayeredConfig
