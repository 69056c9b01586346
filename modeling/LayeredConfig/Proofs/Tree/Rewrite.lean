import LayeredConfig.Proofs.Resolve.Walk
import LayeredConfig.Proofs.Tree.Leaves

/-!
# Rewriting the strings of a tree

Anchoring a tree, resolving it and clearing it have one thing in common.  They put
something in the place of its strings, one by one, and nothing else of the tree changes: no
key, no order of keys, no length of a sequence, no other scalar.  `Value.rewrite` is that
operation, where what becomes of a string may depend on its text and on its path.

From what a rewriting does to a node follows what it does below the node's path
(`at?_rewrite`), and nothing happens to a node without strings that change
(`rewrite_of_kept`).  Replacement of texts alone is a rewriting that does not look at
paths (`mapText_eq_rewrite`).  What all of them leave of a tree, whatever they put in, is its
shape (`sameShape_rewriteEntries`).
-/

namespace LayeredConfig

mutual

/-- The value, standing at `here`, with every string leaf replaced by what `onto` makes of
its path and its text. -/
def Value.rewrite (onto : Path → String → Value) (here : Path) : Value → Value
  | .str text => onto here text
  | .seq items => .seq (Value.rewriteItems onto here 0 items)
  | .map entries => .map (Value.rewriteEntries onto here entries)
  | v => v

/-- The items of a sequence, the first of which has index `i`, rewritten. -/
def Value.rewriteItems (onto : Path → String → Value) (here : Path) (i : Nat) :
    List Value → List Value
  | [] => []
  | v :: rest =>
    v.rewrite onto (here ++ [.index i]) :: Value.rewriteItems onto here (i + 1) rest

/-- The entries of a mapping rewritten. -/
def Value.rewriteEntries (onto : Path → String → Value) (here : Path) :
    List (String × Value) → List (String × Value)
  | [] => []
  | (name, v) :: rest =>
    (name, v.rewrite onto (here ++ [.key name])) :: Value.rewriteEntries onto here rest

end

namespace Value

variable {onto : Path → String → Value} {here : Path}

theorem rewrite_of_other {v : Value} (hv : v.isComposite = false) (hother : v.asString? = none) :
    v.rewrite onto here = v := by
  cases v <;> first | rfl | contradiction

theorem length_rewriteItems (i : Nat) (items : List Value) :
    (rewriteItems onto here i items).length = items.length := by
  induction items generalizing i with
  | nil => rfl
  | cons v rest ih => rw [rewriteItems, List.length_cons, List.length_cons, ih]

theorem getElem?_rewriteItems (k : Nat) (items : List Value) (i : Nat) :
    (rewriteItems onto here k items)[i]? =
      items[i]?.map (rewrite onto (here ++ [.index (k + i)])) := by
  induction items generalizing k i with
  | nil => rfl
  | cons v rest ih =>
      cases i with
      | zero => rfl
      | succ i =>
          rw [rewriteItems, List.getElem?_cons_succ, List.getElem?_cons_succ, ih,
            Nat.add_right_comm, Nat.add_assoc]

theorem rewriteEntries_eq_map (entries : Mapping) :
    rewriteEntries onto here entries =
      entries.map fun entry => (entry.1, entry.2.rewrite onto (here ++ [.key entry.1])) := by
  induction entries with
  | nil => rfl
  | cons entry rest ih => rw [rewriteEntries, ih, List.map_cons]

theorem lookup_rewriteEntries (entries : Mapping) (name : String) :
    (rewriteEntries onto here entries).lookup name =
      (entries.lookup name).map (rewrite onto (here ++ [.key name])) := by
  induction entries with
  | nil => rfl
  | cons entry rest ih =>
      rw [rewriteEntries, List.lookup_cons, List.lookup_cons, ih]
      by_cases hname : name = entry.1
      · subst hname
        simp
      · rw [beq_false_of_ne hname]

/-- A child of a rewritten value is the child that was there, rewritten. -/
theorem child?_rewrite {v child : Value} {s : Segment} (h : v.child? s = some child) :
    (v.rewrite onto here).child? s = some (child.rewrite onto (here ++ [s])) := by
  rcases child?_cases h with ⟨entries, name, rfl, rfl, hchild⟩ | ⟨items, i, rfl, rfl, hchild⟩
  · rw [rewrite, child?]
    exact (lookup_rewriteEntries entries name).trans (congrArg _ hchild)
  · rw [rewrite, child?, getElem?_rewriteItems, hchild, Nat.zero_add, Option.map_some]

/-- **A node of a rewritten value** is the node that was there, rewritten. -/
theorem at?_rewrite {v w : Value} {r : Path} (h : v.at? r = some w) :
    (v.rewrite onto here).at? r = some (w.rewrite onto (here ++ r)) := by
  induction r generalizing v here with
  | nil =>
      obtain rfl : v = w := Option.some.inj h
      rw [List.append_nil]
      rfl
  | cons s rest ih =>
      obtain ⟨child, hchild, hrest⟩ := exists_child_of_at? h
      rw [at?_cons, child?_rewrite hchild, Option.bind_some, List.append_cons here s rest]
      exact ih hrest

/-- A rewriting that keeps every text of a value keeps the value. -/
theorem rewrite_of_kept {v : Value} (h : ∀ text ∈ v.texts, ∀ p, onto p text = .str text) :
    v.rewrite onto here = v := by
  induction v using tree_induction generalizing here with
  | text text => exact h text (by simp) here
  | other v hv hother => exact rewrite_of_other hv hother
  | seq items ih =>
      rw [texts_seq] at h
      have hitem : ∀ v ∈ items, ∀ p, v.rewrite onto p = v := fun v hv _ =>
        ih v hv fun text ht => h text (List.mem_flatMap.mpr ⟨v, hv, ht⟩)
      have hitems : rewriteItems onto here 0 items = items := by
        refine List.ext_getElem? fun i => ?_
        rw [getElem?_rewriteItems]
        cases hi : items[i]? with
        | none => rfl
        | some v => exact congrArg some (hitem v (List.mem_of_getElem? hi) _)
      rw [rewrite, hitems]
  | map entries ih =>
      rw [texts_map] at h
      have hentry : ∀ entry ∈ entries,
          (entry.1, entry.2.rewrite onto (here ++ [.key entry.1])) = entry := by
        intro entry hentry
        rw [ih entry hentry fun text ht => h text (List.mem_flatMap.mpr ⟨entry, hentry, ht⟩)]
      rw [rewrite, rewriteEntries_eq_map, List.map_congr_left hentry, List.map_id']

/-- The texts of a value whose strings are rewritten to strings are the rewritten texts of its
leaves. -/
theorem exists_leaf_of_mem_texts_rewrite {onto : Path → String → String} {v : Value} {text : String}
    (h : text ∈ (v.rewrite (fun p old => .str (onto p old)) here).texts) :
    ∃ p old, (p, .str old) ∈ v.leavesFrom here ∧ text = onto p old := by
  induction v using tree_induction generalizing here with
  | text old => exact ⟨here, old, List.mem_singleton_self _, List.mem_singleton.mp h⟩
  | other v hv hother =>
      rw [rewrite_of_other hv hother, texts_of_scalar hv, hother] at h
      exact absurd h List.not_mem_nil
  | seq items ih =>
      rw [rewrite, texts_seq] at h
      obtain ⟨w, hw, htext⟩ := List.mem_flatMap.mp h
      obtain ⟨i, hi⟩ := List.mem_iff_getElem?.mp hw
      rw [getElem?_rewriteItems] at hi
      obtain ⟨item, hitem, rfl⟩ := Option.map_eq_some_iff.mp hi
      obtain ⟨p, old, hleaf, hold⟩ := ih item (List.mem_of_getElem? hitem) htext
      exact ⟨p, old, mem_leavesOfItems.mpr ⟨i, item, hitem, hleaf⟩, hold⟩
  | map entries ih =>
      rw [rewrite, rewriteEntries_eq_map, texts_map] at h
      obtain ⟨w, hw, htext⟩ := List.mem_flatMap.mp h
      obtain ⟨entry, hentry, rfl⟩ := List.mem_map.mp hw
      obtain ⟨p, old, hleaf, hold⟩ := ih entry hentry htext
      exact ⟨p, old, mem_leavesOfEntries.mpr ⟨entry, hentry, hleaf⟩, hold⟩

/-- Items that are kept stay when others stand in front of them. -/
theorem rewrite_seq_append_of_kept {items : List Value} (old : List Value)
    (h : ∀ v ∈ items, ∀ text ∈ v.texts, ∀ p, onto p text = .str text) :
    ∃ old', old'.length = old.length ∧
      (Value.seq (old ++ items)).rewrite onto here = .seq (old' ++ items) := by
  have hkept : ∀ i, rewriteItems onto here i items = items := by
    induction items with
    | nil => exact fun i => rfl
    | cons v rest ih =>
        intro i
        have hhead : v.rewrite onto (here ++ [.index i]) = v :=
          rewrite_of_kept (h v List.mem_cons_self)
        rw [rewriteItems, hhead, ih fun w hw => h w (List.mem_cons_of_mem _ hw)]
  have hsplit : ∀ i, rewriteItems onto here i (old ++ items) =
      rewriteItems onto here i old ++ rewriteItems onto here (i + old.length) items := by
    induction old with
    | nil => exact fun i => rfl
    | cons v rest ih =>
        intro i
        rw [List.cons_append, rewriteItems, rewriteItems, ih, List.cons_append,
          List.length_cons, Nat.add_right_comm, Nat.add_assoc i]
  refine ⟨rewriteItems onto here 0 old, length_rewriteItems 0 old, ?_⟩
  rw [rewrite, hsplit, hkept]

/-- A well-formed value stays well formed when its strings are rewritten to well-formed
values. -/
theorem WellFormed.rewrite {v : Value} (hv : v.WellFormed)
    (honto : ∀ p text, (onto p text).WellFormed) : (v.rewrite onto here).WellFormed := by
  induction v using tree_induction generalizing here with
  | text text => exact honto here text
  | other v hcomposite hother => exact (rewrite_of_other hcomposite hother).symm ▸ hv
  | seq items ih =>
      refine wellFormed_seq.mpr fun w hw => ?_
      obtain ⟨i, hi⟩ := List.mem_iff_getElem?.mp hw
      rw [getElem?_rewriteItems] at hi
      obtain ⟨v, hitem, rfl⟩ := Option.map_eq_some_iff.mp hi
      have hmem : v ∈ items := List.mem_of_getElem? hitem
      exact ih v hmem (wellFormed_seq.mp hv v hmem)
  | map entries ih =>
      obtain ⟨hnodup, hvalues⟩ := wellFormed_map.mp hv
      rw [Value.rewrite, rewriteEntries_eq_map]
      refine wellFormed_map.mpr ⟨?_, fun entry hentry => ?_⟩
      · rw [Mapping.keys, List.map_map]
        exact hnodup
      · obtain ⟨old, hold, rfl⟩ := List.mem_map.mp hentry
        exact ih old hold (hvalues old hold)

/-- A replacement of texts is a rewriting. -/
theorem mapText_eq_rewrite (f : String → Value) (v : Value) (here : Path) :
    v.mapText f = v.rewrite (fun _ => f) here := by
  induction v using tree_induction generalizing here with
  | text text => rfl
  | other v hv hother => rw [mapText_of_other hv hother, rewrite_of_other hv hother]
  | seq items ih =>
      have hitems : mapTextItems f items = rewriteItems (fun _ => f) here 0 items := by
        refine List.ext_getElem? fun i => ?_
        rw [mapTextItems_eq_map, getElem?_rewriteItems, List.getElem?_map]
        cases hi : items[i]? with
        | none => rfl
        | some v => exact congrArg some (ih v (List.mem_of_getElem? hi) _)
      rw [mapText, hitems, rewrite]
  | map entries ih =>
      rw [mapText, mapTextEntries_eq_map, rewrite, rewriteEntries_eq_map]
      exact congrArg map (List.map_congr_left fun entry hentry =>
        congrArg (Prod.mk entry.1) (ih entry hentry _))

theorem WellFormed.mapText {f : String → Value} {v : Value} (hv : v.WellFormed)
    (hf : ∀ text, (f text).WellFormed) : (v.mapText f).WellFormed := by
  rw [mapText_eq_rewrite f v []]
  exact hv.rewrite fun _ => hf

end Value

namespace Mapping

/-- A rewriting leaves the keys of a mapping. -/
theorem keys_rewriteEntries (onto : Path → String → Value) (here : Path) (entries : Mapping) :
    Mapping.keys (Value.rewriteEntries onto here entries) = entries.keys := by
  rw [Value.rewriteEntries_eq_map, keys, List.map_map]
  rfl

/-- A node of a rewritten tree is the node that was there, rewritten. -/
theorem get?_rewriteEntries {onto : Path → String → Value} {tree : Mapping} {p : Path}
    {v : Value} (h : tree.get? p = some v) :
    Mapping.get? (Value.rewriteEntries onto [] tree) p = some (v.rewrite onto p) := by
  rw [get?] at h ⊢
  split at h
  · contradiction
  · next hp =>
      have hnode : (Value.map (Value.rewriteEntries onto [] tree)).at? p =
          some (v.rewrite onto p) := Value.at?_rewrite h
      rw [if_neg hp, hnode]

/-- A replacement of texts is a rewriting of the entries. -/
theorem mapTextEntries_eq_rewriteEntries (f : String → Value) (tree : Mapping) :
    Value.mapTextEntries f tree = Value.rewriteEntries (fun _ => f) [] tree :=
  Value.map.inj (Value.mapText_eq_rewrite f (.map tree) [])

/-- A node of a tree with its texts replaced. -/
theorem get?_mapTextEntries {f : String → Value} {tree : Mapping} {p : Path} {v : Value}
    (h : tree.get? p = some v) :
    Mapping.get? (Value.mapTextEntries f tree) p = some (v.mapText f) := by
  rw [mapTextEntries_eq_rewriteEntries, Value.mapText_eq_rewrite f v p]
  exact get?_rewriteEntries h

/-! ## The shape of a tree -/

/-- A tree that has the containers of another one: where that has a mapping, a mapping with the
same keys in the same order, and where that has a sequence, one of the same length. -/
structure SameShape (tree out : Mapping) : Prop where
  keys : out.keys = tree.keys
  mapping : ∀ p entries, tree.get? p = some (.map entries) →
    ∃ entries' : Mapping, out.get? p = some (.map entries') ∧
      entries'.keys = Mapping.keys entries
  sequence : ∀ p items, tree.get? p = some (.seq items) →
    ∃ items', out.get? p = some (.seq items') ∧ items'.length = items.length

/-- **A rewriting keeps the shape** of a tree. -/
theorem sameShape_rewriteEntries (onto : Path → String → Value) (tree : Mapping) :
    tree.SameShape (Value.rewriteEntries onto [] tree) where
  keys := keys_rewriteEntries onto [] tree
  mapping := fun p entries h => ⟨_, get?_rewriteEntries h, keys_rewriteEntries onto p entries⟩
  sequence := fun _ items h => ⟨_, get?_rewriteEntries h, Value.length_rewriteItems 0 items⟩

/-- A replacement of texts keeps the shape of a tree. -/
theorem sameShape_mapTextEntries (f : String → Value) (tree : Mapping) :
    tree.SameShape (Value.mapTextEntries f tree) := by
  rw [mapTextEntries_eq_rewriteEntries]
  exact sameShape_rewriteEntries _ tree

/-- A scalar other than a string stays where it is when texts are replaced. -/
theorem get?_mapTextEntries_of_other {f : String → Value} {tree : Mapping} {p : Path} {v : Value}
    (h : tree.get? p = some v) (hv : v.isComposite = false) (hother : v.asString? = none) :
    Mapping.get? (Value.mapTextEntries f tree) p = some v := by
  rw [get?_mapTextEntries h, Value.mapText_of_other hv hother]

end Mapping

end LayeredConfig
