import LayeredConfig.Placeholder.Anchor
import LayeredConfig.Proofs.Placeholder.Pieces
import LayeredConfig.Proofs.Tree.Edits
import LayeredConfig.Proofs.Tree.Rewrite

/-!
# Anchoring is a rewriting

Anchoring first collects the leaves that change and then writes them back, each by its
path.  In a well-formed tree a path leads to one leaf only, so the writes do not get into
one another's way and none of them fails: the whole is the rewriting that anchors every
string where it stands (`anchor_eq_rewrite`).

The proof goes down the tree.  The writes below a member of a container are the writes of
that member, lifted; the members before it are finished and those behind it untouched.

Texts in which no placeholder opens, and those that are one placeholder that names its
target from the root, stay (`rewrite_anchoredLeaf_of_kept`).
-/

namespace LayeredConfig

namespace Placeholder

/-! ## Texts that stay -/

/-- A text in which no placeholder opens. -/
def Plain (text : String) : Prop :=
  ¬ ['$', '{'] <:+: text.toList

instance (text : String) : Decidable (Plain text) :=
  inferInstanceAs (Decidable (¬ ['$', '{'] <:+: text.toList))

/-- Where nothing opens, there is no relative reference. -/
theorem hasRelative_of_not_infix {cs : List Char} (h : ¬ ['$', '{'] <:+: cs) :
    hasRelative cs = false := by
  fun_induction hasRelative cs with
  | case1 rest ih => exact absurd ⟨[], rest, rfl⟩ h
  | case2 c rest _ ih => exact ih fun hinside => h (hinside.trans (List.suffix_cons c rest).isInfix)
  | case3 => rfl

theorem hasRelative_of_plain {text : String} (h : Plain text) : hasRelative text.toList = false :=
  hasRelative_of_not_infix h

/-- Where nothing opens, there is no placeholder. -/
theorem contains_of_plain {text : String} (h : Plain text) : contains text = false := by
  by_contra hcontains
  have hkeys : keys text ≠ [] := contains_iff.mp (by simpa using hcontains)
  obtain ⟨key, hkey⟩ := List.exists_mem_of_ne_nil _ hkeys
  obtain ⟨front, behind, hsplit⟩ := exists_split_of_mem_keys hkey
  refine h ⟨front, key.toList ++ '}' :: behind, ?_⟩
  rw [hsplit]
  simp [wrapChars]

/-- A placeholder that names its target from the root is no relative reference. -/
theorem hasRelative_wrap {key : String} (hkey : Inert key.toList)
    (hroot : key.toList.head? = some '/') : hasRelative (wrap key).toList = false := by
  obtain ⟨rest, hrest⟩ := List.head?_eq_some_iff.mp hroot
  have hchars : ∀ c ∈ '/' :: rest ++ ['}'], c ≠ '$' := by
    intro c hc
    rcases List.mem_append.mp hc with hc | hc
    · exact (isKeyChar_iff.mp (hkey.2 c (hrest ▸ hc))).1
    · rw [List.mem_singleton.mp hc]
      decide
  have hbehind : hasRelative ('/' :: rest ++ ['}']) = false :=
    hasRelative_of_not_infix fun hinside => hchars '$' (hinside.subset List.mem_cons_self) rfl
  have htext : (wrap key).toList = '$' :: '\x7b' :: ('/' :: rest ++ ['}']) := by
    rw [wrap, String.toList_ofList, wrapChars, hrest]
    rfl
  rw [htext, hasRelative, hbehind]
  rfl

end Placeholder

namespace Value

/-! ## Writing into one member -/

/-- A write below an item leaves the items before it and behind it. -/
theorem write_item {before behind : List Value} {v w new : Value} {r : Path}
    (h : v.write r new = .done w) :
    (Value.seq (before ++ v :: behind)).write (.index before.length :: r) new =
      .done (.seq (before ++ w :: behind)) := by
  have hitem : (before ++ v :: behind)[before.length]? = some v := by simp
  rw [write, hitem]
  simp [h]

/-- A write below an entry leaves the entries before it and behind it. -/
theorem write_entry {before behind : Mapping} {name : String} {v w new : Value} {r : Path}
    (hname : name ∉ before.keys) (h : v.write r new = .done w) :
    (Value.map (before ++ (name, v) :: behind)).write (.key name :: r) new =
      .done (.map (before ++ (name, w) :: behind)) := by
  have hlookup : (before ++ (name, v) :: behind).lookup name = some v := by
    rw [List.lookup_append, Mapping.lookup_of_not_mem_keys hname, List.lookup_cons_self]
    rfl
  have hinsert : Mapping.insert (before ++ (name, v) :: behind) name w =
      before ++ (name, w) :: behind := by
    rw [Mapping.insert_append hname, Mapping.insert, if_pos rfl]
  rw [write]
  simp only [entriesOrNone, hlookup, Option.getD_some, h, Edited.done_map, hinsert]

/-! ## All writes -/

/-- What anchoring makes of the string at a path. -/
def anchoredLeaf (p : Path) (text : String) : Value :=
  .str ((Placeholder.anchored? p.dropLast text).getD text)

/-- A leaf that anchoring changes, with its new text. -/
def relativeLeaf? (leaf : Path × Value) : Option (Path × String) :=
  match leaf.2 with
  | .str text => (Placeholder.anchored? leaf.1.dropLast text).map (leaf.1, ·)
  | _ => none

/-- Writes a text into a value that stands at a place of the given length. -/
def writeBelow (length : Nat) (v : Value) (leaf : Path × String) : Edited SetError Value :=
  v.write (leaf.1.drop length) (.str leaf.2)

theorem relativeLeaf?_str (p : Path) (text : String) :
    relativeLeaf? (p, .str text) = (Placeholder.anchored? p.dropLast text).map (p, ·) := rfl

theorem relativeLeaf?_of_other {p : Path} {v : Value} (h : v.asString? = none) :
    relativeLeaf? (p, v) = none := by
  cases v <;> first | rfl | contradiction

/-- A changed leaf is a string that stood at its path. -/
theorem mem_of_mem_relative {leaves : List (Path × Value)} {leaf : Path × String}
    (h : leaf ∈ leaves.filterMap relativeLeaf?) : ∃ text, (leaf.1, .str text) ∈ leaves := by
  obtain ⟨⟨p, w⟩, hleaf, hrelative⟩ := List.mem_filterMap.mp h
  cases w with
  | str text =>
      rw [relativeLeaf?_str] at hrelative
      obtain ⟨new, -, rfl⟩ := Option.map_eq_some_iff.mp hrelative
      exact ⟨text, hleaf⟩
  | _ => contradiction

/-- The writes below a member are the writes of the member, lifted into the container. -/
theorem foldl_writeBelow_lift {v : Value} (hv : v.WellFormed) (here : Path) (step : Segment)
    (lift : Value → Value)
    (hlift : ∀ (v w new : Value) (r : Path), v.write r new = .done w →
      (lift v).write (step :: r) new = .done (lift w)) {w : Value}
    (h : Edited.foldl (writeBelow (here ++ [step]).length) v
      ((v.leavesFrom (here ++ [step])).filterMap relativeLeaf?) = .done w) :
    Edited.foldl (writeBelow here.length) (lift v)
      ((v.leavesFrom (here ++ [step])).filterMap relativeLeaf?) = .done (lift w) := by
  refine Edited.foldl_lift lift (fun leaf hleaf b b' hwrite => ?_) h
  obtain ⟨text, hmem⟩ := mem_of_mem_relative hleaf
  obtain ⟨r, hr, -, -⟩ := at?_of_mem_leavesFrom hv hmem
  rw [writeBelow, hr, List.drop_left] at hwrite
  rw [writeBelow, hr, List.append_assoc, List.drop_left]
  exact hlift b b' _ r hwrite

/-- **The writes below a value rewrite it.** -/
theorem foldl_writeBelow {v : Value} (hv : v.WellFormed) (here : Path) :
    Edited.foldl (writeBelow here.length) v ((v.leavesFrom here).filterMap relativeLeaf?) =
      .done (v.rewrite anchoredLeaf here) := by
  induction v using tree_induction generalizing here with
  | text text =>
      have hself : (Value.str text).leavesFrom here = [(here, .str text)] := rfl
      rw [hself, rewrite, anchoredLeaf]
      cases hanchored : Placeholder.anchored? here.dropLast text with
      | none => simp [relativeLeaf?, hanchored, Edited.foldl]
      | some new => simp [relativeLeaf?, hanchored, Edited.foldl, writeBelow, write]
  | other v hcomposite hother =>
      rw [leavesFrom_of_scalar hcomposite, rewrite_of_other hcomposite hother]
      simp [relativeLeaf?_of_other hother, Edited.foldl]
  | seq items ih =>
      -- `before` is written already, `rest` still to be gone through
      have hitems : ∀ rest before : List Value, (∀ v ∈ rest, v ∈ items) →
          Edited.foldl (writeBelow here.length) (.seq (before ++ rest))
            ((leavesOfItems here before.length rest).filterMap relativeLeaf?) =
          .done (.seq (before ++ rewriteItems anchoredLeaf here before.length rest)) := by
        intro rest
        induction rest with
        | nil => intro before _; rfl
        | cons v rest ihrest =>
            intro before hsub
            have hmem : v ∈ items := hsub v List.mem_cons_self
            have hwf : v.WellFormed := wellFormed_seq.mp hv v hmem
            have hhead := foldl_writeBelow_lift hwf here (.index before.length)
              (fun v => .seq (before ++ v :: rest))
              (fun _ _ _ _ h => write_item h) (ih v hmem hwf (here ++ [.index before.length]))
            have hrest := ihrest
              (before ++ [v.rewrite anchoredLeaf (here ++ [.index before.length])])
              fun w hw => hsub w (List.mem_cons_of_mem _ hw)
            rw [List.length_append, List.length_singleton, List.append_assoc,
              List.singleton_append, List.append_assoc, List.singleton_append] at hrest
            rw [leavesOfItems, List.filterMap_append, Edited.foldl_append, hhead,
              Edited.done_andThen, hrest]
            rfl
      exact hitems items [] fun _ => id
  | map entries ih =>
      obtain ⟨hnodup, hvalues⟩ := wellFormed_map.mp hv
      have hentries : ∀ rest before : Mapping, (∀ entry ∈ rest, entry ∈ entries) →
          (Mapping.keys (before ++ rest)).Nodup →
          Edited.foldl (writeBelow here.length) (.map (before ++ rest))
            ((leavesOfEntries here rest).filterMap relativeLeaf?) =
          .done (.map (before ++ rewriteEntries anchoredLeaf here rest)) := by
        intro rest
        induction rest with
        | nil => intro before _ _; rfl
        | cons entry rest ihrest =>
            intro before hsub hdistinct
            obtain ⟨name, v⟩ := entry
            have hmem : (name, v) ∈ entries := hsub _ List.mem_cons_self
            have hwf : v.WellFormed := hvalues _ hmem
            have hfresh : name ∉ before.keys := Mapping.not_mem_keys_of_nodup hdistinct
            have hhead := foldl_writeBelow_lift hwf here (.key name)
              (fun v => .map (before ++ (name, v) :: rest))
              (fun _ _ _ _ h => write_entry hfresh h) (ih _ hmem hwf (here ++ [.key name]))
            have hrest := ihrest
              (before ++ [(name, v.rewrite anchoredLeaf (here ++ [.key name]))])
              (fun w hw => hsub w (List.mem_cons_of_mem _ hw))
              (by simpa [Mapping.keys] using hdistinct)
            rw [List.append_assoc, List.singleton_append, List.append_assoc,
              List.singleton_append] at hrest
            rw [leavesOfEntries, List.filterMap_append, Edited.foldl_append, hhead,
              Edited.done_andThen, hrest]
            rfl
      exact hentries entries [] (fun _ => id) hnodup

/-- A value without relative references stays as it is. -/
theorem rewrite_anchoredLeaf_of_kept {v : Value} {here : Path}
    (h : ∀ text ∈ v.texts, Placeholder.hasRelative text.toList = false) :
    v.rewrite anchoredLeaf here = v := by
  refine rewrite_of_kept fun text htext p => ?_
  simp [anchoredLeaf, Placeholder.anchored?, h text htext]

end Value

namespace Mapping

/-- The tree with every string leaf anchored where it stands. -/
def anchoredForm (tree : Mapping) : Mapping :=
  Value.rewriteEntries Value.anchoredLeaf [] tree

/-- The leaves that are written back are those that change. -/
theorem relativeLeaves_eq (tree : Mapping) :
    tree.relativeLeaves = tree.leaves.filterMap Value.relativeLeaf? := by
  refine List.filterMap_congr fun leaf _ => ?_
  obtain ⟨p, v⟩ := leaf
  cases v <;> rfl

/-- Writes under keys that finish on the tree as a value finish on the tree. -/
theorem foldl_set_of_write {leaves : List (Path × String)} {tree : Mapping} {out : Value}
    (hkeys : ∀ leaf ∈ leaves, ∃ name r, leaf.1 = .key name :: r)
    (h : Edited.foldl (Value.writeBelow 0) (.map tree) leaves = .done out) :
    Edited.foldl (fun (tree : Mapping) leaf => tree.set leaf.1 (.str leaf.2)) tree leaves =
      .done out.entriesOrNone := by
  refine Edited.foldl_lift Value.entriesOrNone (fun leaf hleaf v w hwrite => ?_) h
  obtain ⟨name, r, hpath⟩ := hkeys leaf hleaf
  rw [Value.writeBelow, List.drop_zero, hpath] at hwrite
  have hsame : (Value.map v.entriesOrNone).write (.key name :: r) (.str leaf.2) =
      v.write (.key name :: r) (.str leaf.2) := by
    rw [Value.write, Value.write]
    rfl
  rw [hpath, set, if_neg (by simp), hsame, hwrite]
  rfl

/-- **Anchoring is a rewriting.**  In a well-formed tree it never fails, and it anchors
every string where it stands. -/
theorem anchor_eq_rewrite {tree : Mapping} (hwf : (Value.map tree).WellFormed) :
    tree.anchor = ⟨.done tree.anchoredForm, tree.relativeLeaves.length⟩ := by
  have hkeys : ∀ leaf ∈ tree.leaves.filterMap Value.relativeLeaf?,
      ∃ name r, leaf.1 = .key name :: r := by
    intro leaf hleaf
    obtain ⟨text, hmem⟩ := Value.mem_of_mem_relative hleaf
    exact exists_key_of_mem_leaves hwf hmem
  have hwrites := foldl_set_of_write hkeys (Value.foldl_writeBelow hwf [])
  rw [← relativeLeaves_eq] at hwrites
  exact congrArg (Anchoring.mk · _) hwrites

/-- A tree without relative references has no leaf to write back. -/
theorem relativeLeaves_eq_nil {tree : Mapping}
    (h : ∀ text ∈ tree.texts, Placeholder.hasRelative text.toList = false) :
    tree.relativeLeaves = [] := by
  rw [relativeLeaves_eq, List.filterMap_eq_nil_iff]
  rintro ⟨p, v⟩ hleaf
  cases v with
  | str text =>
      have htext : text ∈ tree.texts := List.mem_filterMap.mpr ⟨_, hleaf, rfl⟩
      rw [Value.relativeLeaf?_str, Placeholder.anchored?, h text htext]
      rfl
  | _ => rfl

/-- Such a tree stays as it is, and no leaf is reported. -/
theorem anchor_of_kept {tree : Mapping}
    (h : ∀ text ∈ tree.texts, Placeholder.hasRelative text.toList = false) :
    tree.anchor = ⟨.done tree, 0⟩ := by
  rw [anchor, relativeLeaves_eq_nil h]
  rfl

/-- Anchoring keeps a tree well formed. -/
theorem wellFormed_anchoredForm {tree : Mapping} (hwf : (Value.map tree).WellFormed) :
    (Value.map tree.anchoredForm).WellFormed :=
  hwf.rewrite fun _ _ => trivial

/-- A node of the anchored tree is the node that was there, anchored. -/
theorem get?_anchoredForm {tree : Mapping} {p : Path} {v : Value} (h : tree.get? p = some v) :
    tree.anchoredForm.get? p = some (v.rewrite Value.anchoredLeaf p) :=
  get?_rewriteEntries h

end Mapping

end LayeredConfig
