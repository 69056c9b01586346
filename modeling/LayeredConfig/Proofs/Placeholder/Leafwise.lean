import LayeredConfig.Proofs.Placeholder.Anchor
import LayeredConfig.Proofs.Tree.DocumentOrder

/-!
# Anchoring changes texts and nothing else

Anchoring writes its leaves back with the general write along a path, which makes the mappings
that it needs and overwrites what is in its way.  In a well-formed tree it meets neither: it
is a rewriting (`Mapping.anchor_eq_rewrite`), and a rewriting of texts to texts leaves the keys
of every mapping, the length of every sequence and every other scalar
(`Mapping.retexted_rewriteEntries`).

The leaves that are written back are collected in a list of their own.  It names every string
that has a relative reference once, by the path that leads to it (`nodup_relativeLeaves`,
`mem_relativeLeaves_iff`), so its length, which anchoring reports, is the number of strings
that change.

None of this asks what the keys look like: they may hold points, slashes, brackets and braces.
-/

namespace LayeredConfig

open Placeholder

namespace Mapping

/-- A tree that differs from another one in what a function makes of its strings, by their
paths and texts, and in nothing else: mappings have the same keys in the same order, sequences
the same length, strings are strings, and other scalars stay. -/
structure Retexted (onto : Path → String → String) (tree out : Mapping) : Prop where
  keys : out.keys = tree.keys
  mapping : ∀ p entries, tree.get? p = some (.map entries) →
    ∃ entries' : Mapping, out.get? p = some (.map entries') ∧
      entries'.keys = Mapping.keys entries
  sequence : ∀ p items, tree.get? p = some (.seq items) →
    ∃ items', out.get? p = some (.seq items') ∧ items'.length = items.length
  text : ∀ p text, tree.get? p = some (.str text) → out.get? p = some (.str (onto p text))
  scalar : ∀ p v, tree.get? p = some v → v.isComposite = false → v.asString? = none →
    out.get? p = some v

/-- **A rewriting of texts to texts** changes nothing else. -/
theorem retexted_rewriteEntries (onto : Path → String → String) (tree : Mapping) :
    tree.Retexted onto (Value.rewriteEntries (fun p text => .str (onto p text)) [] tree) where
  keys := (sameShape_rewriteEntries _ tree).keys
  mapping := (sameShape_rewriteEntries _ tree).mapping
  sequence := (sameShape_rewriteEntries _ tree).sequence
  text := fun _ _ h => get?_rewriteEntries h
  scalar := by
    intro p v h hscalar hother
    have hnode : Mapping.get? (Value.rewriteEntries (fun p text => .str (onto p text)) [] tree) p =
        some (v.rewrite (fun p text => .str (onto p text)) p) := get?_rewriteEntries h
    rwa [Value.rewrite_of_other hscalar hother] at hnode

/-! ## The leaves that are written back -/

variable {tree : Mapping}

/-- A leaf that changes is written back to its own path. -/
theorem fst_of_relativeLeaf? {leaf : Path × Value} {changed : Path × String}
    (h : Value.relativeLeaf? leaf = some changed) : changed.1 = leaf.1 := by
  obtain ⟨p, v⟩ := leaf
  cases v with
  | str text =>
      rw [Value.relativeLeaf?_str] at h
      obtain ⟨new, -, rfl⟩ := Option.map_eq_some_iff.mp h
      rfl
  | _ => contradiction

/-- No leaf is written back twice. -/
theorem nodup_relativeLeaves (htree : (Value.map tree).WellFormed) :
    (tree.relativeLeaves.map Prod.fst).Nodup := by
  rw [relativeLeaves_eq]
  refine (nodup_leaves htree).sublist ?_
  induction tree.leaves with
  | nil => exact List.Sublist.slnil
  | cons leaf rest ih =>
      rw [List.filterMap_cons]
      cases hleaf : Value.relativeLeaf? leaf with
      | none => exact ih.cons leaf.1
      | some changed =>
          rw [List.map_cons, List.map_cons, fst_of_relativeLeaf? hleaf]
          exact ih.cons_cons leaf.1

/-- **A leaf is written back** if it is a string that has a relative reference. -/
theorem mem_relativeLeaves_iff (htree : (Value.map tree).WellFormed) {p : Path} {new : String} :
    (p, new) ∈ tree.relativeLeaves ↔
      ∃ text, tree.get? p = some (.str text) ∧ anchored? p.dropLast text = some new := by
  rw [relativeLeaves_eq, List.mem_filterMap]
  constructor
  · rintro ⟨⟨q, v⟩, hleaf, hchanged⟩
    obtain rfl : p = q := fst_of_relativeLeaf? hchanged
    cases v with
    | str text =>
        rw [Value.relativeLeaf?_str] at hchanged
        obtain ⟨new', hanchored, hnew⟩ := Option.map_eq_some_iff.mp hchanged
        obtain rfl : new' = new := congrArg Prod.snd hnew
        exact ⟨text, ((mem_leaves_iff htree).mp hleaf).1, hanchored⟩
    | _ => contradiction
  · rintro ⟨text, hget, hanchored⟩
    refine ⟨(p, .str text), (mem_leaves_iff htree).mpr ⟨hget, rfl⟩, ?_⟩
    rw [Value.relativeLeaf?_str, hanchored, Option.map_some]

/-- **Anchoring changes texts and nothing else.**  It finishes in every well-formed tree.  Each
string becomes its anchored form with respect to the path that leads to it without the last
step, or stays if there is none; all else is as it was.  The number it reports is that of the
leaves that are written back, which are the strings that have an anchored form, each of them
once. -/
theorem anchoring_is_leafwise (htree : (Value.map tree).WellFormed) :
    ∃ out, tree.anchor = ⟨.done out, tree.relativeLeaves.length⟩ ∧
      tree.Retexted (fun p text => (anchored? p.dropLast text).getD text) out ∧
      (tree.relativeLeaves.map Prod.fst).Nodup ∧
      ∀ p new, (p, new) ∈ tree.relativeLeaves ↔
        ∃ text, tree.get? p = some (.str text) ∧ anchored? p.dropLast text = some new :=
  ⟨_, anchor_eq_rewrite htree, retexted_rewriteEntries _ tree, nodup_relativeLeaves htree,
    fun _ _ => mem_relativeLeaves_iff htree⟩

/-- A tree whose keys look like paths, indices and placeholders. -/
def oddTree : Mapping :=
  [("a.b/c", .map [("[0]", .str "${x}"), ("${k}", .seq [.str "-${../y}-", .null, .str "$\x7b"])]),
    ("\x7d", .str "${/z}")]

/-- Two strings of it change, and where they stand is written out in them as it is. -/
theorem oddTree_is_anchored_leafwise :
    (Value.map oddTree).WellFormed ∧
      oddTree.anchor = ⟨.done
        [("a.b/c", .map [("[0]", .str "${/a.b/c/x}"),
            ("${k}", .seq [.str "-${/a.b/c/y}-", .null, .str "$\x7b"])]),
          ("\x7d", .str "${/z}")], 2⟩ ∧
      oddTree.Retexted (fun p text => (anchored? p.dropLast text).getD text)
        oddTree.anchor.result ∧
      oddTree.relativeLeaves.length = 2 ∧
      ([.key "a.b/c", .key "${k}", .index 0], "-${/a.b/c/y}-") ∈ oddTree.relativeLeaves := by
  have htree : (Value.map oddTree).WellFormed := by
    simp [oddTree, Value.WellFormed, Value.WellFormedItems, Value.WellFormedEntries]
  obtain ⟨out, hout, hretexted, -, hchanged⟩ := anchoring_is_leafwise htree
  refine ⟨htree, by rfl, ?_, by rfl, (hchanged _ _).mpr ⟨"-${../y}-", by rfl, by rfl⟩⟩
  rw [hout]
  exact hretexted

end Mapping

end LayeredConfig
