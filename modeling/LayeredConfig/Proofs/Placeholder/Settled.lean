import LayeredConfig.Proofs.Placeholder.Scanning

/-!
# When an anchored tree is settled

Anchoring writes the keys on the way to a leaf into the text of the leaf.  The next pass scans
them with the rest of the text, so whether it finds something to do depends on the keys.  Two
things can go wrong.

* A key holds a `${` that neither a slash nor a closing brace follows.  In the text it opens a
  relative reference, which grows by the container with every pass
  (`placeholder_key_is_not_settled`).
* A key holds a closing brace, and the text a `${` that nothing closes.  With the key in between
  it may be closed.

If neither is the case for the leaves that change, one pass is enough: every placeholder names
its target from the root, and a second pass changes nothing (`anchored_tree_is_settled`).

Three facts about the anchored text carry the proof.  The keys that are put in open nothing
relative (`hasRelative_containerText`).  What is closed in it was closed before
(`closes_of_anchorFrom`), and if nothing was left open there is nothing to close.  So no `${` in
it opens a relative reference (`hasRelative_anchorFrom`).
-/

namespace LayeredConfig

namespace Placeholder

variable {container : Path} {cs front rest : List Char} {depth : Nat}

/-! ## The container in a text -/

/-- Whether a slash or a closing brace follows every `${` of a text. -/
def opensRooted : List Char → Bool
  | '$' :: '{' :: rest =>
    (rest.head? == some '/' || rest.head? == some '}') && opensRooted rest
  | _ :: rest => opensRooted rest
  | [] => true

/-- A text that starts with a slash is no relative reference. -/
theorem isRelative_of_slash (h : cs.head? = some '/') : isRelative cs = false := by
  rw [isRelative, h]
  rfl

/-- A text that opens nothing else than placeholders from the root has no reference to show. -/
theorem hasRelative_append (hrest : rest.head? ≠ some '{') (h : opensRooted front = true) :
    hasRelative (front ++ rest) = hasRelative rest := by
  fun_induction opensRooted front with
  | case1 front ih =>
      rw [Bool.and_eq_true, Bool.or_eq_true, beq_iff_eq, beq_iff_eq] at h
      obtain ⟨hhead, hfront⟩ := h
      have hkept : isRelative (front ++ rest) = false := by
        cases front with
        | nil => simp at hhead
        | cons c front => rcases hhead with hc | hc <;> simp [isRelative, Option.some.inj hc]
      rw [List.cons_append, List.cons_append, hasRelative, hkept, Bool.false_or, ih hfront]
  | case2 c front hopens ih =>
      rw [List.cons_append, hasRelative]
      · exact ih h
      · exact not_opens_append hrest hopens
  | case3 => rfl

/-- Characters of a key open nothing. -/
theorem opensRooted_of_isKeyChar (h : ∀ c ∈ cs, isKeyChar c = true) : opensRooted cs = true := by
  induction cs with
  | nil => rfl
  | cons c cs ih =>
      have hdollar : c ≠ '$' := (isKeyChar_iff.mp (h c List.mem_cons_self)).1
      rw [opensRooted]
      · exact ih fun d hd => h d (List.mem_cons_of_mem _ hd)
      · exact fun _ hc => absurd hc hdollar

/-- Keys that close nothing close nothing in the reference to a container either. -/
theorem closes_of_containerText
    (hkeys : ∀ name, .key name ∈ container → closes 1 name.toList = false) (hdepth : 1 ≤ depth)
    (h : closes depth (containerText container ++ rest) = true) : closes depth rest = true := by
  induction container with
  | nil => exact h
  | cons s container ih =>
      rw [containerText_cons_append] at h
      refine ih (fun name hname => hkeys name (List.mem_cons_of_mem _ hname)) ?_
      refine closes_of_append (head?_containerText_ne (by decide) (by decide) _ _) ?_ hdepth h
      cases s with
      | key name => exact hkeys name List.mem_cons_self
      | index i =>
          have hindex : closes 1 (Path.indexText i ++ []) = false :=
            closes_key_append isKeyChar_indexText 1 []
          rwa [List.append_nil] at hindex

/-- Keys that open nothing but placeholders from the root open nothing else in the reference to a
container. -/
theorem hasRelative_containerText
    (hkeys : ∀ name, .key name ∈ container → opensRooted name.toList = true) :
    hasRelative (containerText container ++ rest) = hasRelative rest := by
  induction container with
  | nil => rfl
  | cons s container ih =>
      have hstep : opensRooted (Path.rootedStep s) = true := by
        cases s with
        | key name => exact hkeys name List.mem_cons_self
        | index i => exact opensRooted_of_isKeyChar isKeyChar_indexText
      rw [containerText_cons_append,
        hasRelative_append (head?_containerText_ne (by decide) (by decide) _ _) hstep]
      exact ih fun name hname => hkeys name (List.mem_cons_of_mem _ hname)

/-! ## Anchored texts -/

/-- Anchoring leaves the first character. -/
theorem head?_anchorFrom (container : Path) (cs : List Char) :
    (anchorFrom container 0 cs).head? = cs.head? := by
  induction cs using anchoring_induction with
  | nil => rfl
  | reference up rest hrelative hrest _ => rw [anchorFrom_reference container hrelative hrest]; rfl
  | opener rest hrelative _ => rw [anchorFrom_opener container hrelative]; rfl
  | char c rest hopens _ => rw [anchorFrom_char container hopens]; rfl

/-- A character that opens nothing opens nothing in front of the anchored text. -/
theorem not_opens_anchorFrom (container : Path) {c : Char}
    (h : ∀ behind, c = '$' → rest = '{' :: behind → False) (behind : List Char) (hc : c = '$')
    (hbehind : anchorFrom container 0 rest = '{' :: behind) : False := by
  have hhead := head?_anchorFrom container rest
  rw [hbehind] at hhead
  obtain ⟨tail, htail⟩ := List.head?_eq_some_iff.mp hhead.symm
  exact h tail hc htail

/-- What anchoring puts in closes nothing, if the keys of the container do not. -/
theorem closes_of_anchorFrom
    (hkeys : ∀ name, .key name ∈ container → closes 1 name.toList = false) (hdepth : 1 ≤ depth)
    (h : closes depth (anchorFrom container 0 cs) = true) : closes depth cs = true := by
  induction cs using anchoring_induction generalizing depth with
  | nil => exact h
  | reference up rest hrelative hrest ih =>
      rw [anchorFrom_reference container hrelative hrest, closes] at h
      have hancestor : ∀ name, .key name ∈ container.ancestor up →
          closes 1 name.toList = false :=
        fun name hname => hkeys name (List.mem_of_mem_take hname)
      rw [closes, closes_key_append (isKeyChar_stepsText up)]
      exact ih (Nat.le_add_left 1 depth)
        (closes_of_containerText hancestor (Nat.le_add_left 1 depth) h)
  | opener rest hrelative ih =>
      rw [anchorFrom_opener container hrelative, closes] at h
      rw [closes]
      exact ih (Nat.le_add_left 1 depth) h
  | char c rest hopens ih =>
      rw [anchorFrom_char container hopens] at h
      by_cases hclose : c = '}'
      · subst hclose
        rw [closes, Bool.or_eq_true, decide_eq_true_eq] at h ⊢
        -- the brace closes the last one that is open, or there is one depth less to go
        rcases Nat.lt_or_ge 1 depth with hdeep | hlast
        · exact Or.inr (ih (by omega) (h.resolve_left (by omega)))
        · exact Or.inl hlast
      · rw [closes] at h ⊢
        · exact ih hdepth h
        · exact hopens
        · exact hclose
        · exact not_opens_anchorFrom container hopens
        · exact hclose

/-- **An anchored text has no relative reference**, if no `${` is closed in it that was not closed
before. -/
theorem hasRelative_anchorFrom
    (hslash : ∀ up rest, (containerText (container.ancestor up) ++ rest).head? = some '/')
    (hkeys : ∀ name, .key name ∈ container → opensRooted name.toList = true)
    (hcloses : ∀ rest, '$' :: '{' :: rest <:+ cs →
      closes 1 (anchorFrom container 0 rest) = true → closes 1 rest = true) :
    hasRelative (anchorFrom container 0 cs) = false := by
  induction cs using anchoring_induction with
  | nil => rfl
  | reference up rest hrelative hrest ih =>
      have hancestor : ∀ name, .key name ∈ container.ancestor up →
          opensRooted name.toList = true :=
        fun name hname => hkeys name (List.mem_of_mem_take hname)
      -- the `${` is followed by a slash now, and the keys behind it open nothing relative
      rw [anchorFrom_reference container hrelative hrest, hasRelative,
        isRelative_of_slash (hslash up _), Bool.false_or, hasRelative_containerText hancestor]
      exact ih fun behind hbehind => hcloses behind
        (hbehind.trans ((List.suffix_append _ rest).trans
          ((List.suffix_cons _ _).trans (List.suffix_cons _ _))))
  | opener rest hrelative ih =>
      -- what follows the `${` directly is as it was, and it is not closed now if it was not before
      have hkept : isRelative (anchorFrom container 0 rest) = false := by
        by_contra hanchored
        rw [Bool.not_eq_false, isRelative, head?_anchorFrom, Bool.and_eq_true] at hanchored
        rw [isRelative, hanchored.1, hcloses rest (List.suffix_refl _) hanchored.2] at hrelative
        contradiction
      rw [anchorFrom_opener container hrelative, hasRelative, hkept, Bool.false_or]
      exact ih fun behind hbehind => hcloses behind
        (hbehind.trans ((List.suffix_cons _ _).trans (List.suffix_cons _ _)))
  | char c rest hopens ih =>
      rw [anchorFrom_char container hopens, hasRelative]
      · exact ih fun behind hbehind => hcloses behind (hbehind.trans (List.suffix_cons _ _))
      · exact not_opens_anchorFrom container hopens

/-- Without a relative reference, every placeholder names its target from the root. -/
theorem head?_of_mem_keys {text key : String} (h : hasRelative text.toList = false)
    (hkey : key ∈ keys text) : key.toList.head? = some '/' := by
  obtain ⟨front, behind, htext⟩ := exists_split_of_mem_keys hkey
  obtain ⟨hne, hchars⟩ := inert_of_mem_keys hkey
  have hplace : ¬ OpensAt isRelative text.toList front.length := fun hopens => by
    rw [hasRelative_iff.mpr ⟨_, hopens⟩] at h
    contradiction
  cases hcs : key.toList with
  | nil => exact absurd hcs hne
  | cons c cs =>
      rw [hcs] at htext hchars
      have hrest : isRelative (c :: cs ++ '}' :: behind) = false := by
        by_contra hrelative
        refine hplace ⟨front, c :: cs ++ '}' :: behind, ?_, rfl, by simpa using hrelative⟩
        rw [htext, wrapChars]
        simp
      rw [isRelative, closes_key hchars, Bool.and_true, Bool.and_eq_false_iff] at hrest
      have hbrace : c ≠ '}' := (isKeyChar_iff.mp (hchars c List.mem_cons_self)).2.2
      simpa [hbrace] using hrest

/-! ## Anchored trees -/

/-- A container whose keys the next pass does not take for a part of the text: they open only
placeholders from the root, and if the text leaves some `${` open, they close none. -/
structure Harmless (container : Path) (text : String) : Prop where
  rooted : ∀ name, .key name ∈ container → opensRooted name.toList = true
  closed : openDepth 0 text.toList = 0 ∨
    ∀ name, .key name ∈ container → closes 1 name.toList = false

end Placeholder

open Placeholder

namespace Mapping

variable {tree : Mapping}

/-- The reference to the container of a leaf starts at the root. -/
theorem head?_containerText_of_leaf (htree : (Value.map tree).WellFormed) {p : Path} {v : Value}
    (hleaf : (p, v) ∈ tree.leaves) (up : Nat) (rest : List Char) :
    (containerText (Path.ancestor p.dropLast up) ++ rest).head? = some '/' := by
  obtain ⟨name, r, rfl⟩ := exists_key_of_mem_leaves htree hleaf
  have hprefix : Path.ancestor (List.dropLast (.key name :: r)) up <+: .key name :: r :=
    (List.take_prefix _ _).trans (List.dropLast_prefix _)
  cases hancestor : Path.ancestor (List.dropLast (.key name :: r)) up with
  | nil => rfl
  | cons s container =>
      rw [hancestor, List.cons_prefix_cons] at hprefix
      obtain ⟨rfl, -⟩ := hprefix
      rfl

/-- What is done at a leaf in a harmless container leaves no relative reference. -/
theorem hasRelative_anchored (htree : (Value.map tree).WellFormed) {p : Path} {text : String}
    (hleaf : (p, .str text) ∈ tree.leaves)
    (hkeys : hasRelative text.toList = true → Harmless p.dropLast text) :
    hasRelative ((anchored? p.dropLast text).getD text).toList = false := by
  by_cases hrelative : hasRelative text.toList = true
  · obtain ⟨hrooted, hclosed⟩ := hkeys hrelative
    rw [anchored?, if_pos hrelative, Option.getD_some, String.toList_ofList]
    refine hasRelative_anchorFrom (head?_containerText_of_leaf htree hleaf) hrooted
      fun rest hsuffix hrest => ?_
    rcases hclosed with hopen | hclosed
    · exact closes_of_openDepth_eq_zero hopen hsuffix
    · exact closes_of_anchorFrom hclosed (Nat.le_refl 1) hrest
  · rw [anchored?, if_neg hrelative]
    simpa using hrelative

/-- **An anchored tree is settled**, if every leaf that changes stands in a harmless container:
all its placeholders name their targets from the root, and anchoring it again finds no leaf to
change, reports none and leaves it as it is. -/
theorem anchored_tree_is_settled (htree : (Value.map tree).WellFormed)
    (hkeys : ∀ p text, (p, .str text) ∈ tree.leaves → hasRelative text.toList = true →
      Harmless p.dropLast text) :
    ∃ out, tree.anchor.toEdited = .done out ∧
      (∀ text ∈ out.texts, ∀ key ∈ Placeholder.keys text, key.toList.head? = some '/') ∧
      out.relativeLeaves = [] ∧ out.anchor = ⟨.done out, 0⟩ := by
  have hkept : ∀ text ∈ tree.anchoredForm.texts, hasRelative text.toList = false := by
    intro text htext
    have hrewritten : text ∈ ((Value.map tree).rewrite
        (fun p old => .str ((anchored? p.dropLast old).getD old)) []).texts := htext
    obtain ⟨p, old, hleaf, rfl⟩ := Value.exists_leaf_of_mem_texts_rewrite hrewritten
    exact hasRelative_anchored htree hleaf (hkeys p old hleaf)
  exact ⟨tree.anchoredForm, congrArg Anchoring.toEdited (anchor_eq_rewrite htree),
    fun text htext key hkey => head?_of_mem_keys (hkept text htext) hkey,
    relativeLeaves_eq_nil hkept, anchor_of_kept hkept⟩

/-- A tree with a placeholder for a key, which names its target from the root, and a text in
which one of three `${` stays open. -/
def routedTree : Mapping :=
  [("${/k}", .map [("a", .str "$\x7b${n} $\x7b../m\x7d")])]

/-- The key is written into the text, and a second pass keeps it. -/
theorem routedTree_is_settled :
    (Value.map routedTree).WellFormed ∧
    (∀ p text, (p, .str text) ∈ routedTree.leaves → hasRelative text.toList = true →
      Harmless p.dropLast text) ∧
    ∃ out, routedTree.anchor.toEdited = .done out ∧
      (∀ text ∈ out.texts, ∀ key ∈ Placeholder.keys text, key.toList.head? = some '/') ∧
      out.relativeLeaves = [] ∧ out.anchor = ⟨.done out, 0⟩ := by
  have htree : (Value.map routedTree).WellFormed := by
    simp [routedTree, Value.WellFormed, Value.WellFormedEntries]
  have hkeys : ∀ p text, (p, .str text) ∈ routedTree.leaves → hasRelative text.toList = true →
      Harmless p.dropLast text := by
    intro p text hleaf _
    have hsole : (p, Value.str text) =
        ([.key "${/k}", .key "a"], .str "$\x7b${n} $\x7b../m\x7d") := List.mem_singleton.mp hleaf
    obtain ⟨rfl, -⟩ := Prod.mk.inj hsole
    have hname : ∀ name, Segment.key name ∈ [Segment.key "${/k}"] → name = "${/k}" :=
      fun name hmem => Segment.key.inj (List.mem_singleton.mp hmem)
    refine ⟨fun name hmem => ?_, Or.inr fun name hmem => ?_⟩
    · rw [hname name hmem]
      decide
    · rw [hname name hmem]
      decide
  exact ⟨htree, hkeys, anchored_tree_is_settled htree hkeys⟩

/-- A tree with a placeholder for a key that does not name its target from the root. -/
def unroutedTree : Mapping :=
  [("${k}", .map [("a", .str "${n}")])]

/-- **A relative placeholder in a key** is taken for one of the text.  The first pass leaves it
over, and the next one puts the container in once more. -/
theorem placeholder_key_is_not_settled :
    ∃ once twice : Mapping,
      unroutedTree.anchor.toEdited = .done once ∧
      once.texts = ["$\x7b/${k}/n\x7d"] ∧
      Placeholder.keys "$\x7b/${k}/n\x7d" = ["k"] ∧
      once.relativeLeaves.length = 1 ∧
      once.anchor = ⟨.done twice, 1⟩ ∧
      twice.texts = ["$\x7b/$\x7b/${k}/k\x7d/n\x7d"] :=
  ⟨[("${k}", .map [("a", .str "$\x7b/${k}/n\x7d")])],
    [("${k}", .map [("a", .str "$\x7b/$\x7b/${k}/k\x7d/n\x7d")])],
    by rfl, by rfl, by decide, by rfl, by rfl, by rfl⟩

/-- A closing brace in a key closes what the text leaves open. -/
example :
    (Mapping.anchor [("b\x7d", .map [("a", .str "$\x7bx ${n}")])]).result.texts =
        ["$\x7bx $\x7b/b\x7d/n\x7d"] ∧
      (Mapping.anchor (Mapping.anchor
        [("b\x7d", .map [("a", .str "$\x7bx ${n}")])]).result).rewritten = 1 :=
  ⟨by rfl, by rfl⟩

end Mapping

end LayeredConfig
