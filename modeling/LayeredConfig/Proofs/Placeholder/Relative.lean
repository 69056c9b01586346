import LayeredConfig.Proofs.Path.Steps
import LayeredConfig.Proofs.Placeholder.Anchor
import LayeredConfig.Proofs.Placeholder.Depth
import LayeredConfig.Proofs.Placeholder.Rooted

/-!
# References read from where they stand

A reference such as `../peers[0]:-none` is written with respect to the container of its
leaf: a number of steps to the parent, a path to go on with, and a fallback if there is one.
Anchoring takes the steps off, prints the container that they lead to in front of what is
left, and hands the text on to look-ups, which read it with the grammar of paths.

That printing and reading fit together takes three facts about the anchored text.

* The steps are counted right, and nothing but them is taken off (`anchored?_wrap_key`).
* No fallback starts in the notation of the container, nor where the container and the path
  meet, so the same fallback is cut off as before (`splitDefault_keyFrom`).
* What is left of the text is read as a path below the container (`read?_keyFrom`).

`relative_reference_anchors` puts them together for a leaf of a tree.
-/

namespace LayeredConfig

namespace Placeholder

/-- A step that the path of a placeholder can take: by a key that it can go through, or by an
index, which is a machine word. -/
def NameableStep : Segment → Prop
  | .key name => Nameable name
  | .index i => i < Path.indexBound

instance (s : Segment) : Decidable (NameableStep s) :=
  match s with
  | .key name => inferInstanceAs (Decidable (Nameable name))
  | .index i => inferInstanceAs (Decidable (i < Path.indexBound))

theorem NameableStep.readable {s : Segment} (hs : NameableStep s) : Path.Readable s := by
  cases s with
  | key name => exact Nameable.spellable hs
  | index i => exact hs

/-- The characters of an index are digits and brackets. -/
theorem mem_indexText {i : Nat} {c : Char} (hc : c ∈ Path.indexText i) :
    c = '[' ∨ c.isDigit = true ∨ c = ']' := by
  rw [Path.indexText, List.cons_append, List.mem_cons, List.mem_append, List.mem_singleton] at hc
  rcases hc with rfl | hdigit | rfl
  · exact Or.inl rfl
  · exact Or.inr (Or.inl (Nat.isDigit_of_mem_toDigits (by decide) (by decide) hdigit))
  · exact Or.inr (Or.inr rfl)

/-- An index is written without marks of placeholders. -/
theorem isKeyChar_indexText {i : Nat} : ∀ c ∈ Path.indexText i, isKeyChar c = true := by
  intro c hc
  rcases mem_indexText hc with rfl | hdigit | rfl
  · decide
  · refine isKeyChar_iff.mpr ⟨?_, ?_, ?_⟩ <;>
      · rintro rfl
        exact absurd hdigit (by decide)
  · decide

/-- A step is written without marks of placeholders. -/
theorem isKeyChar_rootedStep {s : Segment} (hs : NameableStep s) :
    ∀ c ∈ Path.rootedStep s, isKeyChar c = true := by
  intro c hc
  cases s with
  | key name =>
      rcases List.mem_cons.mp hc with rfl | hc
      · decide
      · have hfree := Nameable.unmarked hs c hc
        simp only [List.mem_cons, List.not_mem_nil, or_false, not_or] at hfree
        exact isKeyChar_iff.mpr hfree.2.2.2.2
  | index i => exact isKeyChar_indexText c hc

/-- No fallback starts in the notation of a step. -/
theorem unsplit_rootedStep {s : Segment} (hs : NameableStep s) :
    ¬ [':', '-'] <:+: Path.rootedStep s := by
  intro h
  cases s with
  | key name =>
      rcases List.infix_cons_iff.mp h with hfront | hinside
      · exact absurd (List.cons_prefix_cons.mp hfront).1 (by decide)
      · exact Nameable.unsplit hs hinside
  | index i =>
      rcases mem_indexText (h.subset List.mem_cons_self) with hc | hc | hc <;>
        exact absurd hc (by decide)

/-! ## The container in front of a text -/

/-- The reference to a container is written without marks of placeholders. -/
theorem isKeyChar_containerText {container : Path} (h : ∀ s ∈ container, NameableStep s) :
    ∀ c ∈ containerText container, isKeyChar c = true := by
  intro c hc
  rcases List.mem_append.mp hc with hc | hc
  · obtain ⟨s, hs, hc⟩ := List.mem_flatMap.mp hc
    exact isKeyChar_rootedStep (h s hs) c hc
  · rw [List.mem_singleton.mp hc]
    decide

/-- The reference to a container starts with its first step. -/
theorem containerText_cons_append (s : Segment) (container : Path) (cs : List Char) :
    containerText (s :: container) ++ cs = Path.rootedStep s ++ (containerText container ++ cs) := by
  rw [containerText, containerText, List.flatMap_cons, List.append_assoc, List.append_assoc,
    List.append_assoc]

/-- A reference to a container starts with a slash or a bracket. -/
theorem head?_containerText (container : Path) (cs : List Char) :
    (containerText container ++ cs).head? = some '/' ∨
      (containerText container ++ cs).head? = some '[' := by
  cases container with
  | nil => exact Or.inl rfl
  | cons s container =>
      cases s with
      | key name => exact Or.inl rfl
      | index i => exact Or.inr rfl

/-- No other character is at the front of a reference to a container. -/
theorem head?_containerText_ne {c : Char} (hslash : '/' ≠ c) (hbracket : '[' ≠ c)
    (container : Path) (cs : List Char) : (containerText container ++ cs).head? ≠ some c := by
  rcases head?_containerText container cs with h | h <;> simpa [h]

/-- No fallback is cut off before the end of a container. -/
theorem cutDefault_containerText {container : Path} (h : ∀ s ∈ container, NameableStep s)
    (cs : List Char) :
    cutDefault (containerText container ++ cs) =
      (containerText container ++ (cutDefault cs).1, (cutDefault cs).2) := by
  induction container with
  | nil =>
      have hslash : cutDefault ('/' :: cs) = ('/' :: (cutDefault cs).1, (cutDefault cs).2) := by
        rw [cutDefault]
        exact fun _ hmark _ => absurd hmark (by decide)
      exact hslash
  | cons s container ih =>
      have hrest := ih fun t ht => h t (List.mem_cons_of_mem _ ht)
      rw [containerText_cons_append, cutDefault_append (unsplit_rootedStep (h s List.mem_cons_self))
        (head?_containerText_ne (by decide) (by decide) container cs), hrest,
        containerText_cons_append]

/-- A text behind a container is read as a path below it. -/
theorem readChars_containerText {container : Path} (h : ∀ s ∈ container, NameableStep s)
    (cs : List Char) :
    Path.readChars (containerText container ++ cs) =
      (Path.readChars cs).map (container ++ ·) := by
  rw [containerText, List.append_assoc, List.singleton_append]
  exact Path.readChars_below (fun s hs => (h s hs).readable) cs

/-! ## References -/

/-- A reference as it is written between the braces: steps to the parent, a path from there,
and a fallback if there is one. -/
structure Reference where
  up : Nat
  path : String
  fallback : Option String

/-- A fallback as it is written behind a path. -/
def fallbackText : Option String → List Char
  | none => []
  | some fallback => ':' :: '-' :: fallback.toList

/-- A number of steps to the parent. -/
def stepsText : Nat → List Char
  | 0 => []
  | up + 1 => '.' :: '.' :: '/' :: stepsText up

namespace Reference

/-- What is left of a reference without its steps to the parent. -/
def rest (ref : Reference) : List Char :=
  ref.path.toList ++ fallbackText ref.fallback

/-- The key of a reference. -/
def key (ref : Reference) : String :=
  String.ofList (stepsText ref.up ++ ref.rest)

/-- The key of a reference with the container that its steps lead to written out. -/
def keyFrom (ref : Reference) (container : Path) : String :=
  String.ofList (containerText (container.ancestor ref.up) ++ ref.rest)

/-- A reference that is read from where it stands.  Something is written between its braces,
no mark of placeholders and no start of a fallback stands in its path, and the path starts
neither at the root nor with one more step to the parent. -/
structure Local (ref : Reference) : Prop where
  nonempty : ref.key ≠ ""
  unmarked : ∀ c ∈ ref.path.toList, isKeyChar c = true
  unsplit : ¬ [':', '-'] <:+: ref.path.toList
  unrooted : ref.path.toList.head? ≠ some '/'
  stepless : ¬ ['.', '.', '/'] <+: ref.path.toList
  plain : ∀ c ∈ (ref.fallback.getD "").toList, isKeyChar c = true

-- the characters of the texts are gone through, not all characters that there are
instance (ref : Reference) : Decidable ref.Local :=
  have (text : String) : Decidable (∀ c ∈ text.toList, isKeyChar c = true) :=
    List.decidableBAll _ text.toList
  decidable_of_iff (ref.key ≠ "" ∧ (∀ c ∈ ref.path.toList, isKeyChar c = true) ∧
    ¬ [':', '-'] <:+: ref.path.toList ∧ ref.path.toList.head? ≠ some '/' ∧
    ¬ ['.', '.', '/'] <+: ref.path.toList ∧
    ∀ c ∈ (ref.fallback.getD "").toList, isKeyChar c = true)
    ⟨fun ⟨hne, hmarks, hsplit, hroot, hstep, hplain⟩ => ⟨hne, hmarks, hsplit, hroot, hstep, hplain⟩,
      fun h => ⟨h.nonempty, h.unmarked, h.unsplit, h.unrooted, h.stepless, h.plain⟩⟩

end Reference

/-- Steps to the parent are written in points and slashes. -/
theorem isKeyChar_stepsText (up : Nat) : ∀ c ∈ stepsText up, isKeyChar c = true := by
  induction up with
  | zero => exact nofun
  | succ up ih =>
      intro c hc
      rcases List.mem_append.mp (show c ∈ ['.', '.', '/'] ++ stepsText up from hc) with hc | hc
      · have hstep : ∀ d ∈ ['.', '.', '/'], isKeyChar d = true :=
          List.all_eq_true.mp (by decide)
        exact hstep c hc
      · exact ih c hc

theorem length_stepsText (up : Nat) : (stepsText up).length = 3 * up := by
  induction up with
  | zero => rfl
  | succ up ih =>
      rw [stepsText, List.length_cons, List.length_cons, List.length_cons, ih]
      omega

/-- Steps in front of a text that has none are the steps that are counted. -/
theorem parentSteps_append (up : Nat) {cs : List Char} (hcs : ¬ ['.', '.', '/'] <+: cs) :
    parentSteps (stepsText up ++ cs) = up := by
  induction up with
  | zero =>
      rw [stepsText, List.nil_append, parentSteps]
      exact fun rest heq => hcs ⟨rest, heq.symm⟩
  | succ up ih => exact congrArg (· + 1) ih

/-- A text is not turned into a step by what follows it, unless that goes on with the step. -/
theorem stepless_append {cs rest : List Char} (hcs : ¬ ['.', '.', '/'] <+: cs)
    (hrest : ∀ c ∈ rest.head?, c ≠ '.' ∧ c ≠ '/') : ¬ ['.', '.', '/'] <+: cs ++ rest := by
  intro h
  rcases Nat.le_total 3 cs.length with hlong | hshort
  · exact hcs (List.prefix_of_prefix_length_le h (List.prefix_append cs rest) hlong)
  · -- the step ends in the rest, so the first character of the rest is one of the step
    obtain ⟨more, hmore⟩ := List.prefix_of_prefix_length_le (List.prefix_append cs rest) h hshort
    rw [← hmore, List.prefix_append_right_inj] at h
    cases more with
    | nil => exact hcs ⟨[], by rw [List.append_nil, ← hmore, List.append_nil]⟩
    | cons c more =>
        obtain ⟨tail, rfl⟩ := h
        obtain ⟨hpoint, hslash⟩ := hrest c rfl
        have hmem : c ∈ ['.', '.', '/'] := hmore ▸ List.mem_append_right cs List.mem_cons_self
        simp [hpoint, hslash] at hmem

/-- A text without a dollar sign is anchored by leaving out what is to be left out. -/
theorem anchorFrom_of_no_dollar (container : Path) {cs : List Char} (hcs : '$' ∉ cs) (skip : Nat) :
    anchorFrom container skip cs = cs.drop skip := by
  induction cs generalizing skip with
  | nil =>
      rw [List.drop_nil]
      cases skip <;> rfl
  | cons c cs ih =>
      have hrest : '$' ∉ cs := fun hmem => hcs (List.mem_cons_of_mem _ hmem)
      cases skip with
      | zero =>
          rw [anchorFrom, ih hrest]
          · rfl
          · exact fun _ hc _ => hcs (hc ▸ List.mem_cons_self)
      | succ skip => exact ih hrest skip

namespace Reference

variable {ref : Reference}

/-- What is left of a reference is written without marks of placeholders. -/
theorem Local.isKeyChar_rest (h : ref.Local) : ∀ c ∈ ref.rest, isKeyChar c = true := by
  intro c hc
  rcases List.mem_append.mp hc with hc | hc
  · exact h.unmarked c hc
  · cases hfallback : ref.fallback with
    | none =>
        rw [hfallback] at hc
        exact absurd hc List.not_mem_nil
    | some fallback =>
        rw [hfallback] at hc
        rcases List.mem_append.mp (show c ∈ [':', '-'] ++ fallback.toList from hc) with hc | hc
        · have hmark : ∀ d ∈ [':', '-'], isKeyChar d = true :=
            List.all_eq_true.mp (by decide)
          exact hmark c hc
        · exact h.plain c (by rw [hfallback]; exact hc)

theorem Local.inert_key (h : ref.Local) : Inert ref.key.toList := by
  refine ⟨fun hnil => h.nonempty (String.toList_eq_nil_iff.mp hnil), fun c hc => ?_⟩
  rw [key, String.toList_ofList] at hc
  rcases List.mem_append.mp hc with hc | hc
  · exact isKeyChar_stepsText ref.up c hc
  · exact h.isKeyChar_rest c hc

theorem nameable_ancestor {container : Path} (h : ∀ s ∈ container, NameableStep s) (up : Nat) :
    ∀ s ∈ container.ancestor up, NameableStep s :=
  fun s hs => h s (List.mem_of_mem_take hs)

theorem Local.inert_keyFrom (h : ref.Local) {container : Path}
    (hcontainer : ∀ s ∈ container, NameableStep s) : Inert (ref.keyFrom container).toList := by
  rw [keyFrom, String.toList_ofList]
  refine ⟨?_, fun c hc => ?_⟩
  · rw [containerText, List.append_assoc, List.singleton_append]
    exact List.append_ne_nil_of_right_ne_nil _ (List.cons_ne_nil _ _)
  · rcases List.mem_append.mp hc with hc | hc
    · exact isKeyChar_containerText (nameable_ancestor hcontainer ref.up) c hc
    · exact h.isKeyChar_rest c hc

/-- What stands behind the path of a reference goes on with no step to the parent. -/
theorem head?_behind_path (ref : Reference) :
    ∀ c ∈ (fallbackText ref.fallback ++ ['}']).head?, c ≠ '.' ∧ c ≠ '/' := by
  intro c hc
  cases hfallback : ref.fallback with
  | none =>
      rw [hfallback] at hc
      obtain rfl : '}' = c := Option.some.inj hc
      decide
  | some fallback =>
      rw [hfallback] at hc
      obtain rfl : ':' = c := Option.some.inj hc
      decide

/-- A local reference is taken for a relative one. -/
theorem Local.isRelative (h : ref.Local) :
    isRelative (stepsText ref.up ++ ref.rest ++ ['}']) = true := by
  have hclosed : closes 1 (stepsText ref.up ++ ref.rest ++ ['}']) = true := by
    have hkey := h.inert_key.2
    rw [key, String.toList_ofList] at hkey
    exact closes_key hkey []
  have hslash : (stepsText ref.up ++ ref.rest ++ ['}']).head? ≠ some '/' := by
    cases hup : ref.up with
    | zero =>
        rw [stepsText, List.nil_append, rest, List.append_assoc]
        cases hpath : ref.path.toList with
        | nil => exact fun hhead => (head?_behind_path ref '/' hhead).2 rfl
        | cons c cs =>
            have hhead := h.unrooted
            rw [hpath] at hhead
            exact hhead
    | succ up => exact fun hhead => absurd (Option.some.inj hhead) (by decide)
  have hbrace : (stepsText ref.up ++ ref.rest ++ ['}']).head? ≠ some '}' := by
    obtain ⟨hne, hchars⟩ := h.inert_key
    rw [key, String.toList_ofList] at hne hchars
    cases hkey : stepsText ref.up ++ ref.rest with
    | nil => exact absurd hkey hne
    | cons c cs =>
        have hc := hchars c (hkey ▸ List.mem_cons_self)
        exact fun hhead => (isKeyChar_iff.mp hc).2.2 (Option.some.inj hhead)
  rw [Placeholder.isRelative, hclosed, Bool.and_true, Bool.and_eq_true, bne_iff_ne, bne_iff_ne]
  exact ⟨hslash, hbrace⟩

/-- **Anchoring writes out the container** that the steps of a reference lead to. -/
theorem Local.anchored?_wrap_key (h : ref.Local) (container : Path) :
    anchored? container (wrap ref.key) = some (wrap (ref.keyFrom container)) := by
  have htext : (wrap ref.key).toList =
      '$' :: '\x7b' :: (stepsText ref.up ++ ref.rest ++ ['}']) := by
    rw [wrap, String.toList_ofList, wrapChars, key, String.toList_ofList]
    rfl
  have hrelative : hasRelative (wrap ref.key).toList = true := by
    rw [htext, hasRelative, h.isRelative, Bool.true_or]
  have hsteps : parentSteps (stepsText ref.up ++ ref.rest ++ ['}']) = ref.up := by
    rw [List.append_assoc, rest, List.append_assoc]
    exact parentSteps_append ref.up (stepless_append h.stepless (head?_behind_path ref))
  have hbehind : anchorFrom container (3 * ref.up) (stepsText ref.up ++ ref.rest ++ ['}']) =
      ref.rest ++ ['}'] := by
    have hdollar : '$' ∉ stepsText ref.up ++ ref.rest ++ ['}'] := by
      have hkey := h.inert_key.2
      rw [key, String.toList_ofList] at hkey
      intro hmem
      rcases List.mem_append.mp hmem with hmem | hmem
      · exact (isKeyChar_iff.mp (hkey '$' hmem)).1 rfl
      · exact absurd hmem (by decide)
    rw [anchorFrom_of_no_dollar container hdollar, List.append_assoc, ← length_stepsText,
      List.drop_left]
  have hanchor : anchorFrom container 0 (wrap ref.key).toList =
      '$' :: '\x7b' :: (containerText (container.ancestor ref.up) ++ (ref.rest ++ ['}'])) := by
    rw [htext, anchorFrom, if_pos h.isRelative]
    simp only [hsteps, hbehind, List.cons_append]
  have hwrap : wrapChars (ref.keyFrom container).toList =
      '$' :: '\x7b' :: (containerText (container.ancestor ref.up) ++ (ref.rest ++ ['}'])) := by
    rw [wrapChars, keyFrom, String.toList_ofList, List.cons_append, List.cons_append,
      List.append_assoc]
  rw [anchored?, if_pos hrelative, hanchor, wrap, hwrap]

/-- **The fallback stays.** -/
theorem Local.splitDefault_keyFrom (h : ref.Local) {container : Path}
    (hcontainer : ∀ s ∈ container, NameableStep s) :
    splitDefault (ref.keyFrom container) =
      (String.ofList (containerText (container.ancestor ref.up) ++ ref.path.toList),
        ref.fallback) := by
  have hrest : cutDefault ref.rest = (ref.path.toList, ref.fallback.map String.toList) := by
    have hcut : cutDefault (fallbackText ref.fallback) =
        ([], ref.fallback.map String.toList) := by
      cases ref.fallback <;> rfl
    have hhead : (fallbackText ref.fallback).head? ≠ some '-' := by
      cases ref.fallback with
      | none => exact nofun
      | some fallback => exact fun hc => absurd (Option.some.inj hc) (by decide)
    rw [rest, cutDefault_append h.unsplit hhead, hcut, List.append_nil]
  rw [splitDefault, keyFrom, String.toList_ofList,
    cutDefault_containerText (nameable_ancestor hcontainer ref.up), hrest]
  simp [Option.map_map, Function.comp_def, String.ofList_toList]

/-- **The path is read below the container.** -/
theorem Local.read?_keyFrom (h : ref.Local) {container : Path}
    (hcontainer : ∀ s ∈ container, NameableStep s) {p : Path} (hp : Path.read? ref.path = some p) :
    Path.read? (pathText (ref.keyFrom container)) = some (container.ancestor ref.up ++ p) := by
  have hread : Path.readChars ref.path.toList = some p := hp
  rw [pathText, h.splitDefault_keyFrom hcontainer, Path.read?, String.toList_ofList,
    readChars_containerText (nameable_ancestor hcontainer ref.up), hread]
  rfl

end Reference

end Placeholder

/-! ## Leaves of a tree -/

open Placeholder

/-- A pass reads an anchored reference at one path of its layer, and the last pass falls back
on what is written behind the path. -/
theorem Pass.find?_of_read? {key : String} {p : Path} (hp : Path.read? (pathText key) = some p)
    (pass : Pass) :
    pass.find? key = (Value.nonNull? (pass.layer.data.get? p)).or
      (if pass.last then (splitDefault key).2.map .str else none) := by
  rw [Pass.find?_eq, Layer.find?, Mapping.find?, hp, Option.bind_some, Option.isSome_some,
    Bool.and_true]

/-- **References are read from where they stand.**  In a tree whose leaf at `container` and one
more step is a local reference, anchoring finishes and makes that leaf one placeholder, with
the same fallback and a path that is read as the container without as many steps as the
reference goes up, followed by the path of the reference.  So every layer is asked for exactly
that path, and null there counts as absent. -/
theorem Mapping.relative_reference_anchors {tree : Mapping}
    (hwf : (Value.map tree).WellFormed) {container : Path}
    (hcontainer : ∀ s ∈ container, NameableStep s) {here : Segment} {ref : Reference}
    (href : ref.Local) {p : Path} (hp : Path.read? ref.path = some p)
    (hleaf : tree.get? (container ++ [here]) = some (.str (wrap ref.key))) :
    ∃ anchored key,
      tree.anchor.toEdited = .done anchored ∧
      anchored.get? (container ++ [here]) = some (.str (wrap key)) ∧
      soleKey? (wrap key) = some key ∧
      (splitDefault key).2 = ref.fallback ∧
      Path.read? (pathText key) = some (container.ancestor ref.up ++ p) ∧
      (∀ layer : Layer, layer.find? (pathText key) =
        Value.nonNull? (layer.data.get? (container.ancestor ref.up ++ p))) ∧
      ∀ pass : Pass, pass.find? key =
        (Value.nonNull? (pass.layer.data.get? (container.ancestor ref.up ++ p))).or
          (if pass.last then ref.fallback.map .str else none) := by
  have hread := href.read?_keyFrom hcontainer hp
  have hfallback : (splitDefault (ref.keyFrom container)).2 = ref.fallback :=
    congrArg Prod.snd (href.splitDefault_keyFrom hcontainer)
  have hnode : tree.anchoredForm.get? (container ++ [here]) =
      some (.str (wrap (ref.keyFrom container))) := by
    rw [get?_anchoredForm hleaf, Value.rewrite, Value.anchoredLeaf, List.dropLast_concat,
      href.anchored?_wrap_key, Option.getD_some]
  refine ⟨tree.anchoredForm, ref.keyFrom container,
    congrArg Mapping.Anchoring.toEdited (anchor_eq_rewrite hwf), hnode,
    soleKey?_eq_some_iff.mpr ⟨rfl, href.inert_keyFrom hcontainer⟩, hfallback, hread, ?_, ?_⟩
  · intro layer
    rw [Layer.find?, find?, hread, Option.bind_some]
  · intro pass
    rw [Pass.find?_of_read? hread, hfallback]

/-- A tree with a reference out of a sequence, up to a neighbour of it. -/
def meshTree : Mapping :=
  [("net", .map [
    ("hops", .seq [.str "first", .map [("via", .str "$\x7b../../peers[1].name:-none\x7d")]]),
    ("peers", .seq [.null, .map [("name", .str "edge")]])])]

/-- The reference in that tree. -/
def meshReference : Reference :=
  ⟨2, "peers[1].name", some "none"⟩

theorem wrap_meshReference :
    wrap meshReference.key = "$\x7b../../peers[1].name:-none\x7d" := by decide

/-- In that tree the reference is read at the neighbour. -/
theorem mesh_reference_anchors :
    ∃ anchored key,
      meshTree.anchor.toEdited = .done anchored ∧
      anchored.get? [.key "net", .key "hops", .index 1, .key "via"] = some (.str (wrap key)) ∧
      soleKey? (wrap key) = some key ∧
      (splitDefault key).2 = some "none" ∧
      Path.read? (pathText key) = some [.key "net", .key "peers", .index 1, .key "name"] ∧
      (∀ layer : Layer, layer.find? (pathText key) =
        Value.nonNull? (layer.data.get? [.key "net", .key "peers", .index 1, .key "name"])) ∧
      ∀ pass : Pass, pass.find? key =
        (Value.nonNull? (pass.layer.data.get?
          [.key "net", .key "peers", .index 1, .key "name"])).or
          (if pass.last then some (.str "none") else none) := by
  have hwf : (Value.map meshTree).WellFormed := by
    simp [meshTree, Value.WellFormed, Value.WellFormedItems, Value.WellFormedEntries]
  have hcontainer : ∀ s ∈ [Segment.key "net", .key "hops", .index 1], NameableStep s := by decide
  have href : meshReference.Local := by decide +kernel
  have hp : Path.read? meshReference.path = some [.key "peers", .index 1, .key "name"] := by
    decide
  have hleaf : meshTree.get? ([.key "net", .key "hops", .index 1] ++ [.key "via"]) =
      some (.str (wrap meshReference.key)) := by
    rw [wrap_meshReference]
    rfl
  exact Mapping.relative_reference_anchors hwf hcontainer href hp hleaf

end LayeredConfig
