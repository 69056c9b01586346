import LayeredConfig.Proofs.Tree.Descent
import LayeredConfig.Tree.Walk
import Mathlib.Data.List.Basic

/-!
# The texts of a tree

Only the string leaves of a tree can hold placeholders.  `Value.texts` lists
them in document order, wherever they stand: what is said about "every string of
a tree" is said about this list.

A value holds lists of values, so statements about every tree go by
`Value.tree_induction`: a string, another scalar, a sequence of values that satisfy
the statement, a mapping into such values.
-/

namespace LayeredConfig

/-- **Induction over a tree.**  What holds of strings and of the other scalars, and of a
sequence or a mapping if it holds of every value in it, holds of every value. -/
theorem Value.tree_induction {motive : Value → Prop} (text : ∀ text, motive (.str text))
    (other : ∀ v : Value, v.isComposite = false → v.asString? = none → motive v)
    (seq : ∀ items, (∀ v ∈ items, motive v) → motive (.seq items))
    (map : ∀ entries, (∀ entry ∈ entries, motive entry.2) → motive (.map entries))
    (v : Value) : motive v := by
  refine Value.rec (motive_1 := motive) (motive_2 := fun items => ∀ v ∈ items, motive v)
    (motive_3 := fun entries => ∀ entry ∈ entries, motive entry.2)
    (motive_4 := fun entry => motive entry.2)
    (other _ rfl rfl) (fun _ => other _ rfl rfl) (fun _ => other _ rfl rfl)
    (fun _ => other _ rfl rfl) text seq map ?_ ?_ ?_ ?_ ?_ v
  · simp
  · intro head rest hhead hrest v hv
    rcases List.mem_cons.mp hv with rfl | hv
    · exact hhead
    · exact hrest v hv
  · simp
  · intro head rest hhead hrest entry hentry
    rcases List.mem_cons.mp hentry with rfl | hentry
    · exact hhead
    · exact hrest entry hentry
  · intro name v hv
    exact hv

/-- **Induction over the mappings of a tree**, where nothing looks into sequences.  What holds
of every value that is no mapping, and of a mapping if it holds of every value in it, holds of
every value. -/
theorem Value.map_induction {motive : Value → Prop}
    (leaf : ∀ v : Value, (∀ entries, v ≠ .map entries) → motive v)
    (map : ∀ entries, (∀ entry ∈ entries, motive entry.2) → motive (.map entries))
    (v : Value) : motive v := by
  induction v using Value.tree_induction with
  | text text => exact leaf _ nofun
  | other v hcomposite _ =>
      refine leaf v ?_
      rintro entries rfl
      contradiction
  | seq items _ => exact leaf _ nofun
  | map entries ih => exact map entries ih

/-- The texts of the string leaves of a value, in document order. -/
def Value.texts (v : Value) : List String :=
  (v.leavesFrom []).filterMap fun leaf => leaf.2.asString?

/-- The texts of the string leaves of a tree, in document order. -/
def Mapping.texts (tree : Mapping) : List String :=
  (Value.map tree).texts

namespace Value

/-- Where a walk starts changes the paths of the leaves, not the leaves. -/
theorem leavesFrom_map_snd (v : Value) (here there : Path) :
    (v.leavesFrom here).map Prod.snd = (v.leavesFrom there).map Prod.snd := by
  induction v using tree_induction generalizing here there with
  | text text => rfl
  | other v hv _ => cases v <;> first | rfl | simp [isComposite] at hv
  | seq items ih =>
      have hitems : ∀ i j, (leavesOfItems here i items).map Prod.snd =
          (leavesOfItems there j items).map Prod.snd := by
        induction items with
        | nil => intro i j; rfl
        | cons v rest ihrest =>
            intro i j
            have hrest := ihrest fun w hw => ih w (List.mem_cons_of_mem _ hw)
            simp only [leavesOfItems, List.map_append]
            rw [ih v List.mem_cons_self _ (there ++ [.index j]), hrest (i + 1) (j + 1)]
      exact hitems 0 0
  | map entries ih =>
      induction entries with
      | nil => rfl
      | cons entry rest ihrest =>
          have hrest := ihrest fun e he => ih e (List.mem_cons_of_mem _ he)
          simp only [leavesFrom] at hrest
          simp only [leavesFrom, leavesOfEntries, List.map_append]
          rw [ih entry List.mem_cons_self _ (there ++ [.key entry.1]), hrest]

/-- The texts are those of the leaves, wherever the walk starts. -/
theorem texts_eq (v : Value) (here : Path) :
    v.texts = ((v.leavesFrom here).map Prod.snd).filterMap asString? := by
  rw [leavesFrom_map_snd v here [], List.filterMap_map]
  rfl

/-- A scalar has its own text, if it is a string. -/
theorem texts_of_scalar {v : Value} (hv : v.isComposite = false) :
    v.texts = v.asString?.toList := by
  cases v <;> first | rfl | simp [isComposite] at hv

/-- A node that has a text is the string of the text. -/
theorem eq_str_of_asString? {v : Option Value} {text : String}
    (h : v.bind asString? = some text) : v = some (.str text) := by
  obtain ⟨w, rfl, hw⟩ := Option.bind_eq_some_iff.mp h
  cases w with
  | str text' => exact congrArg (fun text => some (Value.str text)) (Option.some.inj hw)
  | _ => cases hw

/-- The text of a string. -/
@[simp] theorem texts_str (text : String) : (Value.str text).texts = [text] := rfl

/-- The texts of a sequence are those of its items. -/
@[simp] theorem texts_seq (items : List Value) :
    (Value.seq items).texts = items.flatMap texts := by
  have hitems : ∀ i, ((leavesOfItems [] i items).map Prod.snd).filterMap asString? =
      items.flatMap texts := by
    induction items with
    | nil => intro i; rfl
    | cons v rest ih =>
        intro i
        rw [leavesOfItems, List.map_append, List.filterMap_append, ih (i + 1),
          List.flatMap_cons, texts_eq v ([] ++ [.index i])]
  rw [texts_eq _ []]
  exact hitems 0

/-- The texts of a mapping are those of its values. -/
@[simp] theorem texts_map (entries : List (String × Value)) :
    (Value.map entries).texts = entries.flatMap fun entry => entry.2.texts := by
  rw [texts_eq _ []]
  induction entries with
  | nil => rfl
  | cons entry rest ih =>
      rw [leavesFrom] at ih ⊢
      rw [leavesOfEntries, List.map_append, List.filterMap_append, ih, List.flatMap_cons,
        texts_eq entry.2 ([] ++ [.key entry.1])]

/-- The texts of a child are texts of the container. -/
theorem texts_subset_of_child? {v child : Value} {s : Segment} (h : v.child? s = some child) :
    child.texts ⊆ v.texts := by
  intro text htext
  rcases child?_cases h with ⟨entries, name, rfl, rfl, hchild⟩ | ⟨items, i, rfl, rfl, hchild⟩
  · obtain ⟨before, behind, rfl, -⟩ := List.lookup_eq_some_iff.mp hchild
    rw [texts_map]
    exact List.mem_flatMap.mpr
      ⟨_, List.mem_append_right before List.mem_cons_self, htext⟩
  · rw [texts_seq]
    exact List.mem_flatMap.mpr ⟨_, List.mem_of_getElem? hchild, htext⟩

/-- The texts of a node are texts of the value that it stands in. -/
theorem texts_subset_of_at? {v w : Value} {p : Path} (h : v.at? p = some w) :
    w.texts ⊆ v.texts := by
  refine at?_keeps (P := fun u => u.texts ⊆ v.texts) (fun hsub hchild => ?_) (fun _ => id) h
  exact fun text htext => hsub (texts_subset_of_child? hchild htext)

end Value

namespace Mapping

/-- The texts of a tree are those of its entries. -/
theorem mem_texts {tree : Mapping} {text : String} :
    text ∈ tree.texts ↔ ∃ entry ∈ tree, text ∈ entry.2.texts := by
  rw [texts, Value.texts_map, List.mem_flatMap]

/-- The texts of a node of a tree are texts of the tree. -/
theorem texts_subset_of_find? {tree : Mapping} {path : String} {v : Value}
    (h : tree.find? path = some v) : v.texts ⊆ tree.texts := by
  obtain ⟨p, -, hget⟩ := Option.bind_eq_some_iff.mp h
  rw [get?] at hget
  split at hget
  · contradiction
  · exact Value.texts_subset_of_at? hget

end Mapping

end LayeredConfig
