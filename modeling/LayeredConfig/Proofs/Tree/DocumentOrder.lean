import LayeredConfig.Proofs.Tree.Leaves

/-!
# Document order

Two paths that lead to different leaves part at some node: up to there they are the same, and
from there on one of them takes an earlier key or a smaller index than the other.  That one
comes first in the document (`Value.Precedes`).

The leaves of a tree are listed in this order (`pairwise_leavesFrom`).  A mapping and a
sequence need no separate argument for it, for both are the values one step down, with the
steps that lead to them (`Value.children`), and a walk lists the leaves of these one after the
other (`leavesFrom_of_composite`).  What is below one child keeps its order when the step to
the child is put in front (`Precedes.below`), and what is below two children is ordered as their
steps are (`Precedes.of_steps`).

No path precedes itself, so no path is listed twice (`nodup_leaves`).
-/

namespace LayeredConfig

/-- Two lists part at one place only. -/
theorem parting_unique {α : Type} {r r' p p' q q' : List α} {s s' t t' : α} (hst : s ≠ t)
    (hst' : s' ≠ t') (hp : r ++ s :: p = r' ++ s' :: p') (hq : r ++ t :: q = r' ++ t' :: q') :
    r = r' ∧ s = s' ∧ t = t' := by
  induction r generalizing r' with
  | nil =>
      cases r' with
      | nil => exact ⟨rfl, (List.cons.inj hp).1, (List.cons.inj hq).1⟩
      | cons a r' => exact absurd ((List.cons.inj hp).1.trans (List.cons.inj hq).1.symm) hst
  | cons a r ih =>
      cases r' with
      | nil => exact absurd ((List.cons.inj hp).1.symm.trans (List.cons.inj hq).1) hst'
      | cons b r' =>
          obtain ⟨rfl, hbehind⟩ := List.cons.inj hp
          obtain ⟨rfl, hs, ht⟩ := ih hbehind (List.cons.inj hq).2
          exact ⟨rfl, hs, ht⟩

namespace Value

/-! ## One step down -/

/-- The values one step down with the steps that lead to them, in the order of the document. -/
def children : Value → List (Segment × Value)
  | seq items => items.zipIdx.map fun item => (.index item.2, item.1)
  | map entries => entries.map fun entry => (.key entry.1, entry.2)
  | _ => []

/-- Of two steps down from a value the first one comes earlier: its key stands in front of the
other one, or its index is smaller. -/
def StepsBefore : Value → Segment → Segment → Prop
  | map entries, .key name, .key other =>
    (Mapping.keys entries).idxOf name < (Mapping.keys entries).idxOf other
  | seq _, .index i, .index j => i < j
  | _, _, _ => False

/-- At the node where the two paths part, the first one takes an earlier step. -/
def Precedes (v : Value) (p q : Path) : Prop :=
  ∃ common s t p' q' node, p = common ++ s :: p' ∧ q = common ++ t :: q' ∧
    v.at? common = some node ∧ node.StepsBefore s t

variable {v child : Value} {s t : Segment} {p q : Path}

/-- **Induction over the children.**  What holds of scalars, and of a container if it holds of
every child, holds of every value. -/
theorem children_induction {motive : Value → Prop}
    (scalar : ∀ v : Value, v.isComposite = false → motive v)
    (composite : ∀ v : Value, v.isComposite = true → (∀ child ∈ v.children, motive child.2) →
      motive v)
    (v : Value) : motive v := by
  induction v using tree_induction with
  | text text => exact scalar _ rfl
  | other v hcomposite _ => exact scalar v hcomposite
  | seq items ih =>
      refine composite _ rfl fun child hchild => ?_
      obtain ⟨item, hitem, rfl⟩ := List.mem_map.mp hchild
      exact ih item.1 (List.mem_of_getElem? (List.mem_zipIdx_iff_getElem?.mp hitem))
  | map entries ih =>
      refine composite _ rfl fun child hchild => ?_
      obtain ⟨entry, hentry, rfl⟩ := List.mem_map.mp hchild
      exact ih entry hentry

/-- A walk lists the leaves of the children, one child after the other. -/
theorem leavesFrom_of_composite (hv : v.isComposite = true) (here : Path) :
    v.leavesFrom here = v.children.flatMap fun child => child.2.leavesFrom (here ++ [child.1]) := by
  cases v with
  | seq items =>
      have hitems : ∀ k, leavesOfItems here k items =
          (items.zipIdx k).flatMap fun item => item.1.leavesFrom (here ++ [.index item.2]) := by
        clear hv
        induction items with
        | nil => exact fun _ => rfl
        | cons v rest ih =>
            intro k
            rw [leavesOfItems, ih, List.zipIdx_cons, List.flatMap_cons]
      rw [leavesFrom, children, List.flatMap_map]
      exact hitems 0
  | map entries =>
      rw [leavesFrom, children, List.flatMap_map]
      clear hv
      induction entries with
      | nil => rfl
      | cons entry rest ih => rw [leavesOfEntries, ih, List.flatMap_cons]
  | _ => contradiction

/-- The step of a child leads to it. -/
theorem child?_of_mem_children (hv : v.WellFormed) {child : Segment × Value}
    (h : child ∈ v.children) : v.child? child.1 = some child.2 := by
  cases v with
  | seq items =>
      obtain ⟨item, hitem, rfl⟩ := List.mem_map.mp h
      exact List.mem_zipIdx_iff_getElem?.mp hitem
  | map entries =>
      obtain ⟨entry, hentry, rfl⟩ := List.mem_map.mp h
      exact Mapping.lookup_of_mem (wellFormed_map.mp hv).1 hentry
  | _ => contradiction

/-- The children stand in the order of their steps. -/
theorem pairwise_children (hv : v.WellFormed) :
    v.children.Pairwise fun child other => v.StepsBefore child.1 other.1 := by
  cases v with
  | seq items =>
      have hindices : (items.zipIdx.map Prod.snd).Pairwise (· < ·) := by
        rw [List.zipIdx_map_snd]
        exact List.pairwise_lt_range'
      have hitems := List.pairwise_map.mp hindices
      exact List.pairwise_map.mpr hitems
  | map entries =>
      have hnodup : (Mapping.keys entries).Nodup := (wellFormed_map.mp hv).1
      have hkeys : (Mapping.keys entries).Pairwise fun name other =>
          (Mapping.keys entries).idxOf name < (Mapping.keys entries).idxOf other := by
        refine List.pairwise_iff_getElem.mpr fun i j hi hj hij => ?_
        rwa [hnodup.idxOf_getElem i hi, hnodup.idxOf_getElem j hj]
      have hentries := List.pairwise_map.mp hkeys
      exact List.pairwise_map.mpr hentries
  | _ => exact List.Pairwise.nil

/-! ## Precedence -/

/-- Of two steps only one comes earlier. -/
theorem StepsBefore.asymm (h : v.StepsBefore s t) : ¬ v.StepsBefore t s := by
  cases v with
  | map entries => cases s <;> cases t <;> first | exact Nat.lt_asymm h | contradiction
  | seq items => cases s <;> cases t <;> first | exact Nat.lt_asymm h | contradiction
  | _ => contradiction

theorem StepsBefore.ne (h : v.StepsBefore s t) : s ≠ t := by
  rintro rfl
  exact h.asymm h

/-- Paths that open with different steps are ordered as the steps are. -/
theorem Precedes.of_steps (h : v.StepsBefore s t) (p q : Path) :
    v.Precedes (s :: p) (t :: q) :=
  ⟨[], s, t, p, q, v, rfl, rfl, rfl, h⟩

/-- Paths that open with the same step are ordered as they are below it. -/
theorem Precedes.below (h : child.Precedes p q) (hchild : v.child? s = some child) :
    v.Precedes (s :: p) (s :: q) := by
  obtain ⟨common, s', t', p', q', node, rfl, rfl, hnode, hsteps⟩ := h
  refine ⟨s :: common, s', t', p', q', node, rfl, rfl, ?_, hsteps⟩
  rw [at?_cons, hchild]
  exact hnode

/-- **Of two paths only one precedes the other.** -/
theorem Precedes.asymm (h : v.Precedes p q) : ¬ v.Precedes q p := by
  obtain ⟨common, s, t, p', q', node, hp, hq, hnode, hsteps⟩ := h
  rintro ⟨common', t', s', q'', p'', node', hq', hp', hnode', hsteps'⟩
  obtain ⟨rfl, rfl, rfl⟩ := parting_unique hsteps.ne hsteps'.ne.symm (hp.symm.trans hp')
    (hq.symm.trans hq')
  obtain rfl := Option.some.inj (hnode.symm.trans hnode')
  exact hsteps.asymm hsteps'

/-- No path precedes itself. -/
theorem Precedes.irrefl (v : Value) (p : Path) : ¬ v.Precedes p p :=
  fun h => h.asymm h

/-! ## The order of a walk -/

/-- **A walk lists the leaves in document order.** -/
theorem pairwise_leavesFrom (hv : v.WellFormed) (here : Path) :
    (v.leavesFrom here).Pairwise fun leaf other =>
      ∃ p q, leaf.1 = here ++ p ∧ other.1 = here ++ q ∧ v.Precedes p q := by
  induction v using children_induction generalizing here with
  | scalar v hscalar =>
      rw [leavesFrom_of_scalar hscalar]
      exact List.pairwise_singleton _ _
  | composite v hcomposite ih =>
      rw [leavesFrom_of_composite hcomposite, List.pairwise_flatMap]
      constructor
      · intro child hchild
        have hstep := child?_of_mem_children hv hchild
        refine (ih child hchild (hv.child? hstep) _).imp ?_
        rintro leaf other ⟨p, q, hp, hq, hprecedes⟩
        rw [List.append_assoc] at hp hq
        exact ⟨_, _, hp, hq, hprecedes.below hstep⟩
      · refine (pairwise_children hv).imp_of_mem ?_
        intro child other hchild hother hsteps leaf hleaf leaf' hleaf'
        have hbelow := hv.child? (child?_of_mem_children hv hchild)
        have hbelow' := hv.child? (child?_of_mem_children hv hother)
        obtain ⟨p, hp, -, -⟩ := at?_of_mem_leavesFrom hbelow hleaf
        obtain ⟨q, hq, -, -⟩ := at?_of_mem_leavesFrom hbelow' hleaf'
        rw [List.append_assoc] at hp hq
        exact ⟨_, _, hp, hq, .of_steps hsteps p q⟩

end Value

namespace Mapping

variable {tree : Mapping}

/-- The leaves of a tree stand in document order. -/
theorem pairwise_leaves (htree : (Value.map tree).WellFormed) :
    tree.leaves.Pairwise fun leaf other => (Value.map tree).Precedes leaf.1 other.1 := by
  refine (Value.pairwise_leavesFrom htree []).imp ?_
  rintro ⟨p, v⟩ ⟨q, w⟩ ⟨_, _, rfl, rfl, hprecedes⟩
  exact hprecedes

/-- **No path is listed twice** among the leaves of a well-formed tree. -/
theorem nodup_leaves (htree : (Value.map tree).WellFormed) : (tree.leaves.map Prod.fst).Nodup := by
  rw [List.nodup_iff_pairwise_ne, List.pairwise_map]
  refine (pairwise_leaves htree).imp fun hprecedes heq => ?_
  rw [heq] at hprecedes
  exact Value.Precedes.irrefl _ _ hprecedes

/-- A leaf is listed in front of another one exactly if its path precedes the other one's. -/
theorem lt_iff_precedes (htree : (Value.map tree).WellFormed) {i j : Nat} {p q : Path}
    {v w : Value} (hi : tree.leaves[i]? = some (p, v)) (hj : tree.leaves[j]? = some (q, w)) :
    i < j ↔ (Value.map tree).Precedes p q := by
  have hordered : ∀ {i j : Nat} {leaf other : Path × Value}, tree.leaves[i]? = some leaf →
      tree.leaves[j]? = some other → i < j → (Value.map tree).Precedes leaf.1 other.1 := by
    intro i j leaf other hi hj hij
    obtain ⟨hi', rfl⟩ := List.getElem?_eq_some_iff.mp hi
    obtain ⟨hj', rfl⟩ := List.getElem?_eq_some_iff.mp hj
    exact List.pairwise_iff_getElem.mp (pairwise_leaves htree) i j hi' hj' hij
  refine ⟨hordered hi hj, fun hprecedes => ?_⟩
  rcases Nat.lt_trichotomy i j with hlt | rfl | hgt
  · exact hlt
  · obtain ⟨rfl, -⟩ := Prod.mk.inj (Option.some.inj (hi.symm.trans hj))
    exact absurd hprecedes (Value.Precedes.irrefl _ _)
  · exact absurd (hordered hj hi hgt) hprecedes.asymm

/-- **A walk and a look-up describe the same tree.**  No path is listed twice by a walk.  What
is listed with a path is the scalar that the path leads to, and every path that leads to a
scalar is listed.  Of two paths that are listed one precedes the other in the document, and it
is listed first. -/
theorem walk_and_get_agree (htree : (Value.map tree).WellFormed) :
    (tree.leaves.map Prod.fst).Nodup ∧
      (∀ p v, (p, v) ∈ tree.leaves ↔ tree.get? p = some v ∧ v.isComposite = false) ∧
      ∀ (i j : Nat) p q v w, tree.leaves[i]? = some (p, v) → tree.leaves[j]? = some (q, w) →
        (i < j ↔ (Value.map tree).Precedes p q) :=
  ⟨nodup_leaves htree, fun _ _ => mem_leaves_iff htree,
    fun _ _ _ _ _ _ hi hj => lt_iff_precedes htree hi hj⟩

/-- A tree whose keys stand in another order than that of letters, with empty containers. -/
def gardenTree : Mapping :=
  [("rows", .seq [.seq [.str "kale", .null], .map [], .map [("b", .int 2), ("a", .int 1)]]),
    ("beds", .map [("0", .bool true)]), ("", .seq [])]

/-- The walk goes by the place of keys and not by their letters. -/
theorem gardenTree_is_walked_in_order :
    (Value.map gardenTree).WellFormed ∧
      gardenTree.leaves.map Prod.fst =
        [[.key "rows", .index 0, .index 0], [.key "rows", .index 0, .index 1],
          [.key "rows", .index 2, .key "b"], [.key "rows", .index 2, .key "a"],
          [.key "beds", .key "0"]] ∧
      ([.key "rows", .index 2, .key "a"], .int 1) ∈ gardenTree.leaves ∧
      (Value.map gardenTree).Precedes [.key "rows", .index 2, .key "b"]
        [.key "rows", .index 2, .key "a"] ∧
      ¬ (Value.map gardenTree).Precedes [.key "beds", .key "0"]
        [.key "rows", .index 0, .index 1] := by
  have htree : (Value.map gardenTree).WellFormed := by
    simp [gardenTree, Value.WellFormed, Value.WellFormedItems, Value.WellFormedEntries]
  obtain ⟨-, hmem, horder⟩ := walk_and_get_agree htree
  refine ⟨htree, rfl, (hmem _ _).mpr ⟨rfl, rfl⟩, ?_, ?_⟩
  · exact (horder 2 3 _ _ _ _ rfl rfl).mp (by decide)
  · exact mt (horder 4 1 _ _ _ _ rfl rfl).mpr (by decide)

end Mapping

end LayeredConfig
