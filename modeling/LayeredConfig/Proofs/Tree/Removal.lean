import LayeredConfig.Proofs.Tree.Assignment

/-!
# Taking a node out of a tree

`Mapping.remove` goes down to the container of a node and takes the node out of it.  That is a
write: of the container without the node, in the place of the container
(`detach_append`).  So what a removal leaves at all the other paths is known from what a write
leaves, and what is new is one step: a container without a child
(`child?_without_key_self`, `child?_without_key_of_ne`, `child?_without_index`).

`Mapping.remove_takes_out_one_node` goes through what the last step of the path can be.  A key
is gone, and the keys that remain are in their order (`Mapping.WithoutKey`).  An index makes the
items behind it move up (`Mapping.WithoutItem`).
-/

namespace LayeredConfig

namespace Value

variable {v w : Value} {s t : Segment} {r p q : Path} {name : String} {i j : Nat}

/-! ## A container without a child -/

/-- A key that is taken out is gone. -/
theorem child?_without_key_self (hv : v.WellFormed) :
    (v.without (.key name)).child? (.key name) = none := by
  cases v with
  | map entries => exact Mapping.lookup_erase_self (wellFormed_map.mp hv).1
  | _ => rfl

/-- The other steps lead where they led. -/
theorem child?_without_key_of_ne (h : t ≠ .key name) :
    (v.without (.key name)).child? t = v.child? t := by
  cases v with
  | map entries =>
      cases t with
      | key other => exact Mapping.lookup_erase_of_ne fun heq => h (congrArg Segment.key heq)
      | index i => rfl
  | _ => rfl

/-- The items behind the one that is taken out move up. -/
theorem child?_without_index :
    (v.without (.index i)).child? (.index j) =
      v.child? (.index (if j < i then j else j + 1)) := by
  cases v with
  | seq items =>
      rw [without, child?, List.getElem?_eraseIdx]
      split <;> rfl
  | _ => rfl

/-- Taking out an item changes no keys. -/
theorem child?_without_index_key :
    (v.without (.index i)).child? (.key name) = v.child? (.key name) := by
  cases v <;> rfl

/-- Taking out what is not there changes nothing. -/
theorem without_of_child?_eq_none (h : v.child? s = none) : v.without s = v := by
  cases s with
  | key name =>
      cases v with
      | map entries => exact congrArg map (Mapping.erase_of_lookup_eq_none h)
      | _ => rfl
  | index i =>
      cases v with
      | seq items =>
          have hi : items.length ≤ i := List.getElem?_eq_none_iff.mp h
          exact congrArg seq (List.eraseIdx_of_length_le hi)
      | _ => rfl

/-! ## The whole way -/

/-- A removal of one step. -/
theorem detach_singleton : v.detach [s] = (v.child? s, v.without s) := by
  cases s <;> cases v <;> rfl

/-- A removal past the first step is a removal in the child. -/
theorem detach_cons (hrest : p ≠ []) :
    v.detach (s :: p) =
      match v.child? s with
      | some child => ((child.detach p).1, v.withChild s (child.detach p).2)
      | none => (none, v) := by
  cases p with
  | nil => contradiction
  | cons t p =>
      cases s with
      | key name =>
          cases v with
          | map entries =>
              rw [detach.eq_3 _ _ _ hrest, child?]
              cases entries.lookup name <;> rfl
          | _ => rfl
      | index i =>
          cases v with
          | seq items =>
              rw [detach.eq_4 _ _ _ hrest, child?]
              cases items[i]? <;> rfl
          | _ => rfl

/-- **A removal is a write** of the container without the node. -/
theorem detach_append (v : Value) (r : Path) (s : Segment) :
    v.detach (r ++ [s]) =
      match v.at? r with
      | some w => (w.child? s, (v.write r (w.without s)).result)
      | none => (none, v) := by
  induction r generalizing v with
  | nil =>
      rw [List.nil_append, detach_singleton, at?]
      simp only [write, Edited.result_done]
  | cons t r ih =>
      rw [List.cons_append, detach_cons (by simp), at?_cons]
      cases hchild : v.child? t with
      | none => rfl
      | some child =>
          simp only [Option.bind_some, ih child]
          cases hat : child.at? r with
          | none => simp only [withChild_of_child? hchild]
          | some w =>
              simp only [write_cons (passes_of_child? hchild), hchild, Option.getD_some,
                Edited.result_map]

/-- A path that does not go the way of a removal parts from it at the last step, or it
leads past the container. -/
theorem parts_at_end_or_above (hat : v.at? r = some w) (hp : ¬ r ++ [s] <+: q)
    (hq : ¬ q <+: r ++ [s]) :
    (∃ t q', t ≠ s ∧ q = r ++ t :: q') ∨ ∀ new, (v.write r new).result.at? q = v.at? q := by
  obtain ⟨r', s', t, p', q', hne, heq, rfl⟩ := exists_parting hp hq
  rcases List.eq_nil_or_concat p' with rfl | ⟨p', last, rfl⟩
  · obtain ⟨rfl, hlast⟩ := List.append_inj' heq rfl
    obtain rfl := (List.cons.inj hlast).1
    exact Or.inl ⟨t, q', hne, rfl⟩
  · have hsplit : r' ++ s' :: p'.concat last = (r' ++ s' :: p') ++ [last] := by simp
    obtain ⟨rfl, -⟩ := List.append_inj' (heq.trans hsplit) rfl
    exact Or.inr fun new => at?_write_of_parts_of_at? hat hne q' new

end Value

namespace Mapping

/-- The tree `out` is `tree` without the key `name` of the mapping at `r`, and nothing else
done to it. -/
structure WithoutKey (tree : Mapping) (r : Path) (name : String) (out : Mapping) : Prop where
  gone : ∀ below, out.get? (r ++ .key name :: below) = none
  others : ∀ q, ¬ r ++ [.key name] <+: q → ¬ q <+: r ++ [.key name] → out.get? q = tree.get? q
  /-- The keys that remain are in their order, there and on the way. -/
  keys : ∀ q, q <+: r → (Value.map out).keysAt q =
    if q = r then ((Value.map tree).keysAt q).erase name else (Value.map tree).keysAt q

/-- The tree `out` is `tree` without the item `i` of the sequence of `n` items at `r`, and
nothing else done to it. -/
structure WithoutItem (tree : Mapping) (r : Path) (i n : Nat) (out : Mapping) : Prop where
  shorter : ∃ items, out.get? r = some (.seq items) ∧ items.length = n - 1
  before : ∀ j q, j < i → out.get? (r ++ .index j :: q) = tree.get? (r ++ .index j :: q)
  behind : ∀ j q, i ≤ j → out.get? (r ++ .index j :: q) = tree.get? (r ++ .index (j + 1) :: q)
  others : ∀ q, ¬ q <+: r ++ [.index i] → (∀ j q', q ≠ r ++ .index j :: q') →
    out.get? q = tree.get? q
  keys : ∀ q, q <+: r → (Value.map out).keysAt q = (Value.map tree).keysAt q

variable {tree : Mapping} {r p : Path} {s : Segment} {w : Value}

/-- A removal is a write into the root, of the container without the node. -/
theorem remove_append (hat : (Value.map tree).at? r = some w) :
    (tree.remove (r ++ [s])).1 = w.child? s ∧
      ((Value.map tree).write r (w.without s)).result = .map (tree.remove (r ++ [s])).2 := by
  have hout : ∃ out, ((Value.map tree).write r (w.without s)).result = .map out := by
    by_cases hr : r = []
    · subst hr
      obtain rfl := Option.some.inj hat
      rw [Value.write]
      cases s <;> exact ⟨_, rfl⟩
    · exact exists_map_write tree hr _
  obtain ⟨out, hout⟩ := hout
  have hremove : tree.remove (r ++ [s]) = (w.child? s, out) := by
    simp only [remove, Value.detach_append, hat, hout, Value.entriesOrNone]
  rw [hremove]
  exact ⟨rfl, hout⟩

/-- Below what is not there nothing is removed. -/
theorem remove_append_of_none (hat : (Value.map tree).at? r = none) :
    tree.remove (r ++ [s]) = (none, tree) := by
  rw [remove, Value.detach_append, hat]
  rfl

/-- A removal returns what was there. -/
theorem fst_remove (tree : Mapping) (p : Path) : (tree.remove p).1 = tree.get? p := by
  rcases List.eq_nil_or_concat p with rfl | ⟨r, s, hp⟩
  · rfl
  · rw [List.concat_eq_append] at hp
    subst hp
    rw [get?_of_ne_nil (by simp), Value.at?_append]
    cases hat : (Value.map tree).at? r with
    | none =>
        rw [remove_append_of_none hat]
        rfl
    | some w =>
        rw [(remove_append hat).1, Option.bind_some, Value.at?_cons]
        cases w.child? s <;> rfl

/-- A removal of what is not there changes nothing. -/
theorem snd_remove_of_none (h : tree.get? p = none) : (tree.remove p).2 = tree := by
  rcases List.eq_nil_or_concat p with rfl | ⟨r, s, hp⟩
  · rfl
  · rw [List.concat_eq_append] at hp
    subst hp
    cases hat : (Value.map tree).at? r with
    | none => rw [remove_append_of_none hat]
    | some w =>
        obtain ⟨hremoved, hleft⟩ := remove_append (s := s) hat
        have habsent : w.child? s = none := hremoved.symm.trans ((fst_remove ..).trans h)
        rw [Value.without_of_child?_eq_none habsent, Value.result_write_of_at? hat] at hleft
        exact (Value.map.inj hleft).symm

/-- Below the container a removal leaves what is below the container without the node. -/
theorem at?_remove_append (hat : (Value.map tree).at? r = some w) (rest : Path) :
    (Value.map (tree.remove (r ++ [s])).2).at? (r ++ rest) = (w.without s).at? rest := by
  rw [← (remove_append hat).2, Value.at?_append, Value.at?_write_self (Value.admits_of_at? hat)]
  rfl

/-- Above the container a removal changes no keys. -/
theorem keysAt_remove_append (hat : (Value.map tree).at? r = some w) {q : Path} (hq : q <+: r)
    (hne : q ≠ r) :
    (Value.map (tree.remove (r ++ [s])).2).keysAt q = (Value.map tree).keysAt q := by
  obtain ⟨rest, rfl⟩ := hq
  cases rest with
  | nil => exact absurd (List.append_nil q).symm hne
  | cons t rest =>
      rw [← (remove_append hat).2]
      exact Value.keysAt_write_of_at? hat _

/-- **A key that is removed** is gone, and nothing else has changed. -/
theorem withoutKey_of_remove (htree : (Value.map tree).WellFormed) (r : Path) (name : String) :
    tree.WithoutKey r name (tree.remove (r ++ [.key name])).2 := by
  cases hat : (Value.map tree).at? r with
  | none =>
      have hnone : ∀ s rest, tree.get? (r ++ s :: rest) = none := by
        intro s rest
        rw [get?_of_ne_nil (by simp), Value.at?_append, hat]
        rfl
      rw [remove_append_of_none hat]
      refine ⟨hnone _, fun _ _ _ => rfl, fun q _ => ?_⟩
      split
      · next heq =>
          rw [heq, Value.keysAt, hat]
          rfl
      · rfl
  | some w =>
      have hw : w.WellFormed := htree.at? hat
      refine ⟨fun below => ?_, fun q hp hq => ?_, fun q hq => ?_⟩
      · rw [get?_of_ne_nil (by simp), at?_remove_append hat, Value.at?_cons,
          Value.child?_without_key_self hw]
        rfl
      · have hne : q ≠ [] := fun heq => hq (heq ▸ List.nil_prefix)
        rw [get?_of_ne_nil hne, get?_of_ne_nil hne]
        rcases Value.parts_at_end_or_above hat hp hq with ⟨t, q', ht, rfl⟩ | habove
        · rw [at?_remove_append hat, Value.at?_append, hat, Option.bind_some, Value.at?_cons,
            Value.at?_cons, Value.child?_without_key_of_ne ht]
        · rw [← (remove_append hat).2]
          exact habove _
      · split
        · next heq =>
            have hself := at?_remove_append (s := .key name) hat []
            rw [List.append_nil] at hself
            rw [heq, Value.keysAt, hself, Value.keysAt, hat]
            cases w with
            | map entries => exact keys_erase
            | _ => rfl
        · next hne => exact keysAt_remove_append hat hq hne

/-- **An item that is removed** makes the items behind it move up, and nothing else has
changed. -/
theorem withoutItem_of_remove {items : List Value} {i : Nat}
    (hitems : tree.get? r = some (.seq items)) (hi : i < items.length) :
    tree.WithoutItem r i items.length (tree.remove (r ++ [.index i])).2 := by
  have hr : r ≠ [] := by
    rintro rfl
    contradiction
  have hat := (get?_of_ne_nil hr).symm.trans hitems
  have hself := at?_remove_append (s := .index i) hat []
  rw [List.append_nil] at hself
  have hitem : ∀ j q, (tree.remove (r ++ [.index i])).2.get? (r ++ .index j :: q) =
      tree.get? (r ++ .index (if j < i then j else j + 1) :: q) := by
    intro j q
    rw [get?_of_ne_nil (by simp), get?_of_ne_nil (by simp), at?_remove_append hat,
      Value.at?_append, hat, Option.bind_some, Value.at?_cons, Value.at?_cons,
      Value.child?_without_index]
  refine ⟨⟨_, ?_, List.length_eraseIdx_of_lt hi⟩, fun j q hj => ?_, fun j q hj => ?_,
    fun q hq hno => ?_, fun q hq => ?_⟩
  · rw [get?_of_ne_nil hr]
    exact hself
  · rw [hitem, if_pos hj]
  · rw [hitem, if_neg (Nat.not_lt.mpr hj)]
  · have hne : q ≠ [] := fun heq => hq (heq ▸ List.nil_prefix)
    have hp : ¬ r ++ [.index i] <+: q := by
      rintro ⟨rest, rfl⟩
      exact hno i rest (by simp)
    rw [get?_of_ne_nil hne, get?_of_ne_nil hne]
    rcases Value.parts_at_end_or_above hat hp hq with ⟨t, q', -, rfl⟩ | habove
    · cases t with
      | index j => exact absurd rfl (hno j q')
      | key name =>
          rw [at?_remove_append hat, Value.at?_append, hat, Option.bind_some, Value.at?_cons,
            Value.at?_cons, Value.child?_without_index_key]
    · rw [← (remove_append hat).2]
      exact habove _
  · by_cases hne : q = r
    · rw [hne, Value.keysAt, hself, Value.keysAt, hat]
      rfl
    · exact keysAt_remove_append hat hq hne

/-- **One node is taken out**: the one that stood at the path, if any.  Without one the tree
stays.  Else a key is gone and an item makes room, and all else is as it was. -/
theorem remove_takes_out_one_node {tree : Mapping} (htree : (Value.map tree).WellFormed)
    (p : Path) :
    (tree.remove p).1 = tree.get? p ∧
    (tree.get? p = none → (tree.remove p).2 = tree) ∧
    (∀ r name, p = r ++ [.key name] → tree.WithoutKey r name (tree.remove p).2) ∧
    ∀ r i items, p = r ++ [.index i] → tree.get? r = some (.seq items) → i < items.length →
      tree.WithoutItem r i items.length (tree.remove p).2 := by
  refine ⟨fst_remove tree p, snd_remove_of_none, ?_, ?_⟩
  · rintro r name rfl
    exact withoutKey_of_remove htree r name
  · rintro r i items rfl hitems hi
    exact withoutItem_of_remove hitems hi

/-- Fruit with prices, and jars in a row. -/
def pantry : Mapping :=
  [("fruit", .map [("pear", .int 3), ("plum", .int 5)]),
    ("jars", .seq [.str "fig", .map [("of", .str "quince")], .str "rose"])]

/-- The pear goes, and the second jar. -/
theorem pantry_gives_out :
    (Value.map pantry).WellFormed ∧
      pantry.get? [.key "jars"] =
        some (.seq [.str "fig", .map [("of", .str "quince")], .str "rose"]) ∧
      (pantry.remove [.key "fruit", .key "pear"]).1 = some (.int 3) ∧
      pantry.WithoutKey [.key "fruit"] "pear"
        (pantry.remove [.key "fruit", .key "pear"]).2 ∧
      (pantry.remove [.key "jars", .index 1]).1 = some (.map [("of", .str "quince")]) ∧
      pantry.WithoutItem [.key "jars"] 1 3 (pantry.remove [.key "jars", .index 1]).2 ∧
      (pantry.remove [.key "jars", .key "of"]).2 = pantry := by
  have hpantry : (Value.map pantry).WellFormed := by
    simp [pantry, Value.WellFormed, Value.WellFormedEntries, Value.WellFormedItems]
  obtain ⟨hpear, -, hwithoutPear, -⟩ :=
    remove_takes_out_one_node hpantry [.key "fruit", .key "pear"]
  obtain ⟨hjar, -, -, hwithoutJar⟩ :=
    remove_takes_out_one_node hpantry [.key "jars", .index 1]
  obtain ⟨-, habsent, -, -⟩ := remove_takes_out_one_node hpantry [.key "jars", .key "of"]
  exact ⟨hpantry, rfl, hpear, hwithoutPear [.key "fruit"] "pear" rfl, hjar,
    hwithoutJar [.key "jars"] 1 _ rfl rfl (by decide), habsent rfl⟩

end Mapping

end LayeredConfig
