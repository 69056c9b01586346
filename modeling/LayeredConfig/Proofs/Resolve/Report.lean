import LayeredConfig.Proofs.Resolve.Plain
import LayeredConfig.Proofs.Tree.DocumentOrder
import LayeredConfig.Proofs.Tree.Rewrite
import Mathlib.Data.List.Nodup

/-!
# What is reported and what is cleared

The report goes over the leaves and looks for placeholders with `keys`; clearing goes down the
tree by itself and asks `contains`.  They meet in the strings that hold a placeholder:

* the report names a path exactly if such a string stands there (`mem_paths_unresolved_iff`),
  and what it lists with the path are the placeholders of that string (`filter_unresolved`).
  For no two leaves have one path, so of the parts that the leaves add to the report only one
  is about a path (`filter_flatMap_of_mem`);
* clearing puts null in the place of these strings (`get?_clearUnresolved_of_contains`) and
  leaves the other scalars (`cleared_clearUnresolved`).

The texts that are left hold no placeholder (`contains_of_mem_texts_clearUnresolved`).  So
another report is empty, and a tree with an empty report is not changed.
-/

namespace LayeredConfig

open Placeholder

/-- Of parts that stand one behind the other, each under a name of its own, the members with one
of the names are the part under it. -/
theorem filter_flatMap_of_mem {κ α β : Type} [DecidableEq κ] {parts : List (κ × α)}
    {members : κ × α → List (κ × β)} (hparts : (parts.map Prod.fst).Nodup)
    (hmembers : ∀ part, ∀ entry ∈ members part, entry.1 = part.1) {part : κ × α}
    (hpart : part ∈ parts) :
    (parts.flatMap members).filter (fun entry => entry.1 = part.1) = members part := by
  have hown : (members part).filter (fun entry => entry.1 = part.1) = members part :=
    List.filter_eq_self.mpr fun entry hentry => decide_eq_true (hmembers part entry hentry)
  have hother : ∀ others : List (κ × α), part.1 ∉ others.map Prod.fst →
      (others.flatMap members).filter (fun entry => entry.1 = part.1) = [] := by
    intro others hnot
    refine List.filter_eq_nil_iff.mpr fun entry hentry => ?_
    obtain ⟨other, hmem, hentry⟩ := List.mem_flatMap.mp hentry
    rw [hmembers other entry hentry, decide_eq_true_eq]
    intro heq
    exact hnot (heq ▸ List.mem_map_of_mem hmem)
  obtain ⟨front, behind, rfl⟩ := List.append_of_mem hpart
  rw [List.map_append, List.map_cons] at hparts
  obtain ⟨hnotin, -⟩ := List.nodup_cons.mp (List.nodup_middle.mp hparts)
  rw [List.mem_append, not_or] at hnotin
  rw [List.flatMap_append, List.flatMap_cons, List.filter_append, List.filter_append, hown,
    hother front hnotin.1, hother behind hnotin.2, List.nil_append, List.append_nil]

/-! ## The report -/

/-- The placeholders of a leaf, with the path at which it stands. -/
def Value.placeholdersAt (p : Path) : Value → List (Path × String)
  | .str text => (keys text).map fun key => (p, wrap key)
  | _ => []

theorem Value.fst_of_mem_placeholdersAt {p : Path} {v : Value} {entry : Path × String}
    (h : entry ∈ v.placeholdersAt p) : entry.1 = p := by
  cases v with
  | str text =>
      obtain ⟨key, -, rfl⟩ := List.mem_map.mp h
      rfl
  | _ => contradiction

theorem Value.placeholdersAt_of_composite {v : Value} (hv : v.isComposite = true) (p : Path) :
    v.placeholdersAt p = [] := by
  cases v <;> first | rfl | contradiction

/-- A leaf has placeholders exactly if it is a text that holds one. -/
theorem Value.placeholdersAt_ne_nil_iff {p : Path} {v : Value} :
    v.placeholdersAt p ≠ [] ↔ ∃ text, v = .str text ∧ contains text = true := by
  cases v with
  | str text =>
      rw [placeholdersAt, ne_eq, List.map_eq_nil_iff, ← ne_eq, ← contains_iff]
      simp
  | _ => simp [placeholdersAt]

namespace Mapping

/-- A report on the placeholders of a tree: with each path it lists the placeholders of the leaf
that stands there, one entry for each of them and in their order, and nothing where there is no
leaf; and the paths stand in the order of the document. -/
structure Reports (tree : Mapping) (report : List (Path × String)) : Prop where
  leaves : ∀ p, report.filter (fun entry => entry.1 = p) =
    (tree.get? p).elim [] (Value.placeholdersAt p)
  ordered : report.Pairwise fun entry other =>
    entry.1 = other.1 ∨ (Value.map tree).Precedes entry.1 other.1

/-- A tree that differs from another one in that null stands at the paths of a report, and in
nothing else: mappings have the same keys in the same order, sequences the same length, and
the other scalars stay. -/
structure Cleared (report : List (Path × String)) (tree out : Mapping) : Prop
    extends tree.SameShape out where
  listed : ∀ entry ∈ report, out.get? entry.1 = some .null
  spared : ∀ p v, tree.get? p = some v → v.isComposite = false → p ∉ report.map Prod.fst →
    out.get? p = some v

variable {tree : Mapping} {p : Path}

/-- The report lists the placeholders leaf by leaf. -/
theorem unresolved_eq (tree : Mapping) :
    tree.unresolved = tree.leaves.flatMap fun leaf => leaf.2.placeholdersAt leaf.1 := by
  refine List.flatMap_congr fun leaf _ => ?_
  obtain ⟨p, v⟩ := leaf
  cases v <;> rfl

/-- **A path is reported** exactly if a text with a placeholder stands there. -/
theorem mem_paths_unresolved_iff (htree : (Value.map tree).WellFormed) :
    p ∈ tree.unresolved.map Prod.fst ↔
      ∃ text, tree.get? p = some (.str text) ∧ contains text = true := by
  rw [unresolved_eq, List.mem_map]
  constructor
  · rintro ⟨entry, hentry, rfl⟩
    obtain ⟨⟨q, v⟩, hleaf, hentry⟩ := List.mem_flatMap.mp hentry
    obtain ⟨text, rfl, hcontains⟩ :=
      Value.placeholdersAt_ne_nil_iff.mp (List.ne_nil_of_mem hentry)
    rw [Value.fst_of_mem_placeholdersAt hentry]
    exact ⟨text, ((mem_leaves_iff htree).mp hleaf).1, hcontains⟩
  · rintro ⟨text, hget, hcontains⟩
    have hplaceholders : (Value.str text).placeholdersAt p ≠ [] :=
      Value.placeholdersAt_ne_nil_iff.mpr ⟨text, rfl, hcontains⟩
    obtain ⟨entry, hentry⟩ := List.exists_mem_of_ne_nil _ hplaceholders
    exact ⟨entry, List.mem_flatMap.mpr ⟨_, (mem_leaves_iff htree).mpr ⟨hget, rfl⟩, hentry⟩,
      Value.fst_of_mem_placeholdersAt hentry⟩

/-- **What is reported with a path** are the placeholders of the leaf that stands there. -/
theorem filter_unresolved (htree : (Value.map tree).WellFormed) (p : Path) :
    tree.unresolved.filter (fun entry => entry.1 = p) =
      (tree.get? p).elim [] (Value.placeholdersAt p) := by
  by_cases hleaf : ∃ v, (p, v) ∈ tree.leaves
  · obtain ⟨v, hv⟩ := hleaf
    rw [((mem_leaves_iff htree).mp hv).1, unresolved_eq]
    exact filter_flatMap_of_mem (nodup_leaves htree)
      (fun _ _ => Value.fst_of_mem_placeholdersAt) hv
  · have hnone : (tree.get? p).elim [] (Value.placeholdersAt p) = [] := by
      cases hget : tree.get? p with
      | none => rfl
      | some v =>
          refine Value.placeholdersAt_of_composite ?_ p
          by_contra hscalar
          exact hleaf ⟨v, (mem_leaves_iff htree).mpr ⟨hget, by simpa using hscalar⟩⟩
    rw [hnone, List.filter_eq_nil_iff]
    rintro ⟨q, placeholder⟩ hentry hpath
    obtain rfl : q = p := of_decide_eq_true hpath
    obtain ⟨text, hget, -⟩ := (mem_paths_unresolved_iff htree).mp (List.mem_map_of_mem hentry)
    exact hleaf ⟨.str text, (mem_leaves_iff htree).mpr ⟨hget, rfl⟩⟩

/-- The report on a tree names every leaf with its placeholders, in document order. -/
theorem reports_unresolved (htree : (Value.map tree).WellFormed) :
    tree.Reports tree.unresolved where
  leaves := filter_unresolved htree
  ordered := by
    rw [unresolved_eq, List.pairwise_flatMap]
    constructor
    · refine fun leaf _ => List.pairwise_of_forall_mem_list fun entry hentry other hother => ?_
      exact Or.inl ((Value.fst_of_mem_placeholdersAt hentry).trans
        (Value.fst_of_mem_placeholdersAt hother).symm)
    · refine (pairwise_leaves htree).imp fun hprecedes entry hentry other hother => ?_
      rw [Value.fst_of_mem_placeholdersAt hentry, Value.fst_of_mem_placeholdersAt hother]
      exact Or.inr hprecedes

/-- **Nothing is reported** exactly if no text of the tree holds a placeholder. -/
theorem unresolved_eq_nil_iff :
    tree.unresolved = [] ↔ ∀ text ∈ tree.texts, contains text = false := by
  rw [unresolved_eq, List.flatMap_eq_nil_iff]
  constructor
  · intro h text htext
    obtain ⟨⟨q, v⟩, hleaf, hv⟩ := List.mem_filterMap.mp htext
    obtain rfl : v = .str text := Option.some.inj (Value.eq_str_of_asString? hv)
    by_contra hcontains
    refine absurd (h _ hleaf) (Value.placeholdersAt_ne_nil_iff.mpr ⟨text, rfl, ?_⟩)
    simpa using hcontains
  · intro h leaf hleaf
    by_contra hplaceholders
    obtain ⟨text, hv, hcontains⟩ := Value.placeholdersAt_ne_nil_iff.mp hplaceholders
    have htext : text ∈ tree.texts := List.mem_filterMap.mpr ⟨leaf, hleaf, by rw [hv]; rfl⟩
    rw [h text htext] at hcontains
    contradiction

/-! ## Clearing -/

/-- A text with a placeholder is cleared. -/
theorem get?_clearUnresolved_of_contains {text : String} (h : tree.get? p = some (.str text))
    (hcontains : contains text = true) : tree.clearUnresolved.get? p = some .null := by
  rw [clearUnresolved, get?_mapTextEntries h, Value.mapText, clearText, if_pos hcontains]

/-- **Clearing a tree** puts null at the paths that are reported, and changes nothing else. -/
theorem cleared_clearUnresolved (htree : (Value.map tree).WellFormed) :
    Cleared tree.unresolved tree tree.clearUnresolved where
  toSameShape := sameShape_mapTextEntries clearText tree
  listed := by
    intro entry hentry
    obtain ⟨text, hget, hcontains⟩ :=
      (mem_paths_unresolved_iff htree).mp (List.mem_map_of_mem hentry)
    exact get?_clearUnresolved_of_contains hget hcontains
  spared := by
    intro p v hget hscalar hlisted
    rw [clearUnresolved, get?_mapTextEntries hget]
    refine congrArg some (Value.mapText_of_kept fun text htext => ?_)
    rw [Value.texts_of_scalar hscalar, Option.mem_toList] at htext
    obtain rfl : v = .str text := Option.some.inj (Value.eq_str_of_asString? htext)
    have hcontains : ¬ contains text = true := fun hcontains =>
      hlisted ((mem_paths_unresolved_iff htree).mpr ⟨text, hget, hcontains⟩)
    rw [clearText, if_neg hcontains]

/-- The texts that clearing leaves hold no placeholder. -/
theorem contains_of_mem_texts_clearUnresolved {text : String}
    (h : text ∈ tree.clearUnresolved.texts) : contains text = false := by
  have htexts : tree.clearUnresolved.texts =
      tree.texts.flatMap fun text => (clearText text).texts :=
    Value.texts_mapText clearText (.map tree)
  rw [htexts] at h
  obtain ⟨old, -, hold⟩ := List.mem_flatMap.mp h
  rw [clearText] at hold
  split at hold
  · contradiction
  · next hcontains =>
      obtain rfl : text = old := List.mem_singleton.mp hold
      simpa using hcontains

/-- **Clearing changes a tree** exactly if something is reported. -/
theorem clearUnresolved_ne_iff (htree : (Value.map tree).WellFormed) :
    tree.clearUnresolved ≠ tree ↔ tree.unresolved ≠ [] := by
  refine not_congr ⟨fun hsame => ?_, fun hnone => ?_⟩
  · by_contra hreported
    obtain ⟨entry, hentry⟩ := List.exists_mem_of_ne_nil _ hreported
    obtain ⟨text, hget, hcontains⟩ :=
      (mem_paths_unresolved_iff htree).mp (List.mem_map_of_mem hentry)
    have hnull := get?_clearUnresolved_of_contains hget hcontains
    rw [hsame, hget] at hnull
    cases hnull
  · exact clearUnresolved_of_resolved (unresolved_eq_nil_iff.mp hnone)

/-- **The report and the clearing agree.**  The report lists the placeholders of every leaf with
the path of the leaf, in document order, and nothing else.  Clearing puts null at the paths that
are listed and leaves every other leaf, all keys and their order, and the length of every
sequence.  What it leaves has an empty report, and it changes a tree exactly if there was
something to report. -/
theorem report_and_clearing_agree (htree : (Value.map tree).WellFormed) :
    tree.Reports tree.unresolved ∧
      Cleared tree.unresolved tree tree.clearUnresolved ∧
      tree.clearUnresolved.unresolved = [] ∧
      (tree.clearUnresolved ≠ tree ↔ tree.unresolved ≠ []) :=
  ⟨reports_unresolved htree, cleared_clearUnresolved htree,
    unresolved_eq_nil_iff.mpr fun _ => contains_of_mem_texts_clearUnresolved,
    clearUnresolved_ne_iff htree⟩

/-- A tree with placeholders in keys, two in one text, one inside another one, and openings that
are none. -/
def draftTree : Mapping :=
  [("${name}", .seq [.str "${host}:${port}", .str "$\x7b\x7d", .null]), ("a.b", .map []),
    ("nest", .map [("[0]", .str "${x.${y}}"), ("open", .str "$\x7bz")])]

/-- Two of its leaves are reported, one of them twice, and the two are cleared. -/
theorem draftTree_is_reported_and_cleared :
    (Value.map draftTree).WellFormed ∧
      draftTree.unresolved =
        [([.key "${name}", .index 0], "${host}"), ([.key "${name}", .index 0], "${port}"),
          ([.key "nest", .key "[0]"], "${y}")] ∧
      draftTree.Reports draftTree.unresolved ∧
      draftTree.clearUnresolved =
        [("${name}", .seq [.null, .str "$\x7b\x7d", .null]), ("a.b", .map []),
          ("nest", .map [("[0]", .null), ("open", .str "$\x7bz")])] ∧
      Cleared draftTree.unresolved draftTree draftTree.clearUnresolved ∧
      draftTree.clearUnresolved.unresolved = [] ∧ draftTree.clearUnresolved ≠ draftTree := by
  have htree : (Value.map draftTree).WellFormed := by
    simp [draftTree, Value.WellFormed, Value.WellFormedItems, Value.WellFormedEntries]
  have hunresolved : draftTree.unresolved =
      [([.key "${name}", .index 0], "${host}"), ([.key "${name}", .index 0], "${port}"),
        ([.key "nest", .key "[0]"], "${y}")] := by rfl
  obtain ⟨hreports, hcleared, hempty, hchanged⟩ := report_and_clearing_agree htree
  refine ⟨htree, hunresolved, hreports, by rfl, hcleared, hempty, hchanged.mpr ?_⟩
  rw [hunresolved]
  exact List.cons_ne_nil _ _

end Mapping

end LayeredConfig
