import LayeredConfig.Proofs.Tree.Texts
import LayeredConfig.Resolve.Resolution

/-!
# The walk over a tree

Resolving a tree visits its string leaves in document order and puts in the place
of each what a function of its text says.  The walk itself adds nothing to that.

* `resolveLeaves_congr`: it depends on the function at the texts of the tree alone;
* `resolveLeaves_failure`: it fails with an error of the function, or of what is
  done to the keys;
* `failure_resolveLeaves`: where keys are left alone, it fails at the first text that the
  function does not settle;
* `resolveLeaves_mapText`: where the function settles every leaf and keys are left
  alone, the walk is one simultaneous replacement of the leaves;
* `at?_resolveLeaves`: a leaf of the result is the value of the leaf that was
  there, or the walk stopped before.
-/

namespace LayeredConfig

/-! ## Lists, member by member -/

/-- The first hit in lists put together is found member by member. -/
theorem findSome?_flatMap_of {α β γ : Type} {parts : α → List β} {f : β → Option γ}
    {found : α → Option γ} {as : List α} (h : ∀ a ∈ as, found a = (parts a).findSome? f) :
    (as.flatMap parts).findSome? f = as.findSome? found := by
  induction as with
  | nil => rfl
  | cons a rest ih =>
      have hrest := ih fun b hb => h b (List.mem_cons_of_mem _ hb)
      rw [List.flatMap_cons, List.findSome?_append, List.findSome?_cons, hrest,
        h a List.mem_cons_self]
      cases (parts a).findSome? f <;> rfl

namespace Edited

variable {ε α : Type} {edit other : α → Edited ε α}

/-- Edits the members of a list one after the other, until an edit stops. -/
def walk (edit : α → Edited ε α) : List α → Edited ε (List α)
  | [] => .done []
  | a :: rest =>
    match (edit a).failure with
    | some e => .stop ((edit a).result :: rest) e
    | none => (walk edit rest).map ((edit a).result :: ·)

/-- A walk over members that all settle gives what they settle to. -/
theorem walk_map_done {β : Type} {before after : β → α} {bs : List β}
    (h : ∀ b ∈ bs, edit (before b) = .done (after b)) :
    walk edit (bs.map before) = .done (bs.map after) := by
  induction bs with
  | nil => rfl
  | cons b rest ih =>
      have hrest := ih fun b hb => h b (List.mem_cons_of_mem _ hb)
      simp [walk, h b List.mem_cons_self, hrest]

/-- **A walk fails with the first failure** among its members. -/
theorem failure_walk (edit : α → Edited ε α) (as : List α) :
    (walk edit as).failure = as.findSome? fun a => (edit a).failure := by
  induction as with
  | nil => rfl
  | cons a rest ih =>
      rw [walk, List.findSome?_cons]
      cases ha : (edit a).failure with
      | some e => rfl
      | none => exact ih

/-- The failure of a walk is that of one of its members. -/
theorem walk_failure {as : List α} {e : ε} (h : (walk edit as).failure = some e) :
    ∃ a ∈ as, (edit a).failure = some e := by
  rw [failure_walk] at h
  exact List.exists_of_findSome?_eq_some h

/-- Where a walk goes through, every member settles. -/
theorem settled_of_walk {as : List α} (h : (walk edit as).failure = none) :
    ∀ a ∈ as, (edit a).failure = none := by
  rw [failure_walk] at h
  exact List.findSome?_eq_none_iff.mp h

/-- A walk depends on the edits of the members. -/
theorem walk_congr {as : List α} (h : ∀ a ∈ as, edit a = other a) :
    walk edit as = walk other as := by
  induction as with
  | nil => rfl
  | cons a rest ih =>
      have hrest := ih fun b hb => h b (List.mem_cons_of_mem _ hb)
      simp only [walk, h a List.mem_cons_self, hrest]

/-- A member after a walk: the walk went through it, or it stopped before. -/
theorem getElem?_walk {as : List α} {i : Nat} {a : α} (h : as[i]? = some a) :
    (walk edit as).result[i]? = some (edit a).result ∨
      (walk edit as).failure ≠ none ∧ (walk edit as).result[i]? = some a := by
  induction as generalizing i with
  | nil => simp at h
  | cons b rest ih =>
      rw [walk]
      cases i with
      | zero =>
          obtain rfl : b = a := by simpa using h
          cases hb : (edit b).failure <;> exact Or.inl rfl
      | succ i =>
          rw [List.getElem?_cons_succ] at h
          cases hb : (edit b).failure with
          | some e => exact Or.inr ⟨Option.some_ne_none e, h⟩
          | none => exact ih h

end Edited

namespace Value

variable {f g : String → Except Unresolved Value} {k : Mapping → Edited Unresolved Mapping}

/-- One entry of a mapping, its value resolved. -/
def resolveEntry (f : String → Except Unresolved Value)
    (k : Mapping → Edited Unresolved Mapping) (entry : String × Value) :
    Edited Unresolved (String × Value) :=
  (entry.2.resolveLeaves f k).map (entry.1, ·)

/-- The items of a sequence are resolved member by member. -/
theorem resolveItems_eq_walk (items : List Value) :
    resolveItems f k items = Edited.walk (resolveLeaves f k) items := by
  induction items with
  | nil => rfl
  | cons v rest ih =>
      rw [resolveItems, Edited.walk, ih]
      cases (v.resolveLeaves f k).failure <;> rfl

/-- The entries of a mapping are resolved member by member. -/
theorem resolveEntries_eq_walk (entries : List (String × Value)) :
    resolveEntries f k entries = Edited.walk (resolveEntry f k) entries := by
  induction entries with
  | nil => rfl
  | cons entry rest ih =>
      rw [resolveEntries, Edited.walk, ih, resolveEntry, Edited.failure_map]
      cases (entry.2.resolveLeaves f k).failure <;> rfl

/-- The value under a name after a walk: the walk went through it, or it stopped
before. -/
theorem lookup_resolveEntries {entries : List (String × Value)} {name : String} {child : Value}
    (h : entries.lookup name = some child) :
    (resolveEntries f k entries).result.lookup name = some (child.resolveLeaves f k).result ∨
      (resolveEntries f k entries).failure ≠ none ∧
        (resolveEntries f k entries).result.lookup name = some child := by
  induction entries with
  | nil => simp at h
  | cons entry rest ih =>
      obtain ⟨other, v⟩ := entry
      rw [resolveEntries]
      rw [List.lookup_cons] at h
      cases hname : name == other with
      | true =>
          obtain rfl : v = child := by simpa [hname] using h
          cases hv : (v.resolveLeaves f k).failure <;>
            exact Or.inl (by simp [Edited.stop, List.lookup_cons, hname])
      | false =>
          rw [hname] at h
          cases hv : (v.resolveLeaves f k).failure with
          | some e =>
              refine Or.inr ⟨Option.some_ne_none e, ?_⟩
              simpa [Edited.stop, List.lookup_cons, hname] using h
          | none => simpa [List.lookup_cons, hname] using ih h

/-! ## The whole walk -/

/-- A scalar other than a string is settled as it is. -/
theorem resolveLeaves_of_other {v : Value} (hv : v.isComposite = false)
    (hother : v.asString? = none) : v.resolveLeaves f k = .done v := by
  cases v with
  | str text => cases hother
  | seq items => cases hv
  | map entries => cases hv
  | _ => rfl

/-- A scalar other than a string has no text to replace. -/
theorem mapText_of_other {onto : String → Value} {v : Value} (hv : v.isComposite = false)
    (hother : v.asString? = none) : v.mapText onto = v := by
  cases v with
  | str text => cases hother
  | seq items => cases hv
  | map entries => cases hv
  | _ => rfl

/-- A string without placeholders is settled as it is. -/
theorem resolveLeaves_str_of_plain {text : String} (h : Placeholder.contains text = false) :
    (Value.str text).resolveLeaves f k = .done (.str text) := by
  simp [resolveLeaves, h]

/-- **Only the texts count.**  Two functions that agree on the texts of a value that
hold placeholders lead to the same walk over it. -/
theorem resolveLeaves_congr {v : Value}
    (h : ∀ text ∈ v.texts, Placeholder.contains text = true → f text = g text) :
    v.resolveLeaves f k = v.resolveLeaves g k := by
  induction v using tree_induction with
  | text text =>
      by_cases ht : Placeholder.contains text = true
      · simp only [resolveLeaves, h text (by simp) ht]
      · have hplain : Placeholder.contains text = false := by simpa using ht
        rw [resolveLeaves_str_of_plain hplain, resolveLeaves_str_of_plain hplain]
  | other v hv hother => rw [resolveLeaves_of_other hv hother, resolveLeaves_of_other hv hother]
  | seq items ih =>
      rw [texts_seq] at h
      have hitems : ∀ v ∈ items, v.resolveLeaves f k = v.resolveLeaves g k :=
        fun v hv => ih v hv fun text ht => h text (List.mem_flatMap.mpr ⟨v, hv, ht⟩)
      rw [resolveLeaves, resolveLeaves, resolveItems_eq_walk, resolveItems_eq_walk,
        Edited.walk_congr hitems]
  | map entries ih =>
      rw [texts_map] at h
      have hentries : ∀ entry ∈ entries, resolveEntry f k entry = resolveEntry g k entry := by
        intro entry hentry
        rw [resolveEntry, resolveEntry, ih entry hentry fun text ht =>
          h text (List.mem_flatMap.mpr ⟨entry, hentry, ht⟩)]
      rw [resolveLeaves, resolveLeaves, resolveEntries_eq_walk, resolveEntries_eq_walk,
        Edited.walk_congr hentries]

/-- **Where errors come from.**  What holds of the errors of the function and of
those of the keys holds of the errors of the walk. -/
theorem resolveLeaves_failure {P : Unresolved → Prop}
    (hf : ∀ text e, f text = .error e → P e) (hk : ∀ m e, (k m).failure = some e → P e)
    {v : Value} {e : Unresolved} (h : (v.resolveLeaves f k).failure = some e) : P e := by
  induction v using tree_induction with
  | text text =>
      rw [resolveLeaves] at h
      split at h
      · split at h
        · simp at h
        · next e' he =>
            obtain rfl : e' = e := Option.some.inj h
            exact hf text e' he
      · simp at h
  | other v hv hother => simp [resolveLeaves_of_other hv hother] at h
  | seq items ih =>
      rw [resolveLeaves, Edited.failure_map, resolveItems_eq_walk] at h
      obtain ⟨v, hv, hfail⟩ := Edited.walk_failure h
      exact ih v hv hfail
  | map entries ih =>
      rw [resolveLeaves, Edited.failure_map, resolveEntries_eq_walk] at h
      rcases Edited.failure_andThen h with hentries | hkeys
      · obtain ⟨entry, hentry, hfail⟩ := Edited.walk_failure hentries
        exact ih entry hentry hfail
      · exact hk _ e hkeys

/-- Items with every leaf replaced, as a list. -/
theorem mapTextItems_eq_map (onto : String → Value) (items : List Value) :
    mapTextItems onto items = items.map (mapText onto) := by
  induction items with
  | nil => rfl
  | cons v rest ih => simp [mapTextItems, ih]

/-- Entries with every leaf replaced, as a list. -/
theorem mapTextEntries_eq_map (onto : String → Value) (entries : List (String × Value)) :
    mapTextEntries onto entries = entries.map fun entry => (entry.1, entry.2.mapText onto) := by
  induction entries with
  | nil => rfl
  | cons entry rest ih => simp [mapTextEntries, ih]

/-- A replacement depends on what becomes of the texts of the value. -/
theorem mapText_congr {onto other : String → Value} {v : Value}
    (h : ∀ text ∈ v.texts, onto text = other text) : v.mapText onto = v.mapText other := by
  induction v using tree_induction with
  | text text => exact h text (by simp)
  | other v hv hother => rw [mapText_of_other hv hother, mapText_of_other hv hother]
  | seq items ih =>
      rw [texts_seq] at h
      have hitems : ∀ v ∈ items, v.mapText onto = v.mapText other :=
        fun v hv => ih v hv fun text ht => h text (List.mem_flatMap.mpr ⟨v, hv, ht⟩)
      rw [mapText, mapText, mapTextItems_eq_map, mapTextItems_eq_map, List.map_congr_left hitems]
  | map entries ih =>
      rw [texts_map] at h
      have hentries : ∀ entry ∈ entries,
          (entry.1, entry.2.mapText onto) = (entry.1, entry.2.mapText other) := by
        intro entry hentry
        rw [ih entry hentry fun text ht => h text (List.mem_flatMap.mpr ⟨entry, hentry, ht⟩)]
      rw [mapText, mapText, mapTextEntries_eq_map, mapTextEntries_eq_map,
        List.map_congr_left hentries]

/-- Replacing every leaf by its own text changes nothing. -/
theorem mapText_str (v : Value) : v.mapText .str = v := by
  induction v using tree_induction with
  | text text => rfl
  | other v hv hother => exact mapText_of_other hv hother
  | seq items ih =>
      rw [mapText, mapTextItems_eq_map, List.map_congr_left ih, List.map_id']
  | map entries ih =>
      have hentries : ∀ entry ∈ entries, (entry.1, entry.2.mapText .str) = entry :=
        fun entry hentry => by rw [ih entry hentry]
      rw [mapText, mapTextEntries_eq_map, List.map_congr_left hentries, List.map_id']

/-- A replacement that keeps every text of a value keeps the value. -/
theorem mapText_of_kept {onto : String → Value} {v : Value}
    (h : ∀ text ∈ v.texts, onto text = .str text) : v.mapText onto = v :=
  (mapText_congr h).trans (mapText_str v)

/-- The texts after a replacement are those of what became of the texts. -/
theorem texts_mapText (onto : String → Value) (v : Value) :
    (v.mapText onto).texts = v.texts.flatMap fun text => (onto text).texts := by
  induction v using tree_induction with
  | text text => rw [mapText, texts_str, List.flatMap_singleton]
  | other v hv hother => rw [mapText_of_other hv hother, texts_of_scalar hv, hother]; rfl
  | seq items ih =>
      rw [mapText, mapTextItems_eq_map, texts_seq, texts_seq, List.flatMap_map,
        List.flatMap_assoc, List.flatMap_congr ih]
  | map entries ih =>
      rw [mapText, mapTextEntries_eq_map, texts_map, texts_map, List.flatMap_map,
        List.flatMap_assoc, List.flatMap_congr ih]

/-! ## Walks that leave keys alone -/

/-- **The walk is a simultaneous replacement.**  If the function turns the leaf
that stands for each text into another one, the walk does so to every leaf at once. -/
theorem resolveLeaves_mapText {before after : String → Value} {v : Value}
    (h : ∀ text ∈ v.texts, (before text).resolveLeaves f .done = .done (after text)) :
    (v.mapText before).resolveLeaves f .done = .done (v.mapText after) := by
  induction v using tree_induction with
  | text text => exact h text (by simp)
  | other v hv hother =>
      rw [mapText_of_other hv hother, mapText_of_other hv hother, resolveLeaves_of_other hv hother]
  | seq items ih =>
      rw [texts_seq] at h
      have hitems : ∀ v ∈ items,
          (v.mapText before).resolveLeaves f .done = .done (v.mapText after) :=
        fun v hv => ih v hv fun text ht => h text (List.mem_flatMap.mpr ⟨v, hv, ht⟩)
      rw [mapText, mapText, mapTextItems_eq_map, mapTextItems_eq_map, resolveLeaves,
        resolveItems_eq_walk, Edited.walk_map_done hitems, Edited.done_map]
  | map entries ih =>
      rw [texts_map] at h
      have hentries : ∀ entry ∈ entries,
          resolveEntry f .done (entry.1, entry.2.mapText before) =
            .done (entry.1, entry.2.mapText after) := by
        intro entry hentry
        rw [resolveEntry, ih entry hentry fun text ht =>
          h text (List.mem_flatMap.mpr ⟨entry, hentry, ht⟩), Edited.done_map]
      rw [mapText, mapText, mapTextEntries_eq_map, mapTextEntries_eq_map, resolveLeaves,
        resolveEntries_eq_walk, Edited.walk_map_done hentries, Edited.andThen_done,
        Edited.done_map]

/-- A value without placeholders is settled as it is. -/
theorem resolveLeaves_of_plain {v : Value}
    (h : ∀ text ∈ v.texts, Placeholder.contains text = false) :
    v.resolveLeaves f .done = .done v := by
  have hsame : (v.mapText .str).resolveLeaves f .done = .done (v.mapText .str) :=
    resolveLeaves_mapText fun text ht => resolveLeaves_str_of_plain (h text ht)
  rwa [mapText_str] at hsame

/-- **The walk fails at the first text** in document order that the function does not
settle. -/
theorem failure_resolveLeaves (f : String → Except Unresolved Value) (v : Value) :
    (v.resolveLeaves f .done).failure =
      v.texts.findSome? fun text => ((Value.str text).resolveLeaves f .done).failure := by
  induction v using tree_induction with
  | text text => rw [texts_str, List.findSome?_singleton]
  | other v hv hother => rw [resolveLeaves_of_other hv hother, texts_of_scalar hv, hother]; rfl
  | seq items ih =>
      rw [resolveLeaves, Edited.failure_map, resolveItems_eq_walk, Edited.failure_walk, texts_seq,
        findSome?_flatMap_of ih]
  | map entries ih =>
      rw [resolveLeaves, Edited.andThen_done, Edited.failure_map, resolveEntries_eq_walk,
        Edited.failure_walk, texts_map, findSome?_flatMap_of ih]
      rfl

/-- A child of the result is what the walk made of the child that was there, or the walk
stopped before it came to that child. -/
theorem child?_resolveLeaves {v child : Value} {s : Segment} (h : v.child? s = some child) :
    (v.resolveLeaves f .done).result.child? s = some (child.resolveLeaves f .done).result ∧
        ((v.resolveLeaves f .done).failure = none →
          (child.resolveLeaves f .done).failure = none) ∨
      (v.resolveLeaves f .done).failure ≠ none ∧
        (v.resolveLeaves f .done).result.child? s = some child := by
  rcases child?_cases h with ⟨entries, name, rfl, rfl, hchild⟩ | ⟨items, i, rfl, rfl, hchild⟩
  · rw [resolveLeaves, Edited.andThen_done, Edited.failure_map, Edited.result_map, child?]
    refine (lookup_resolveEntries hchild).imp_left fun hwalked => ⟨hwalked, fun hnone => ?_⟩
    obtain ⟨before, behind, rfl, -⟩ := List.lookup_eq_some_iff.mp hchild
    rw [resolveEntries_eq_walk] at hnone
    exact Edited.settled_of_walk hnone (name, child) (by simp)
  · rw [resolveLeaves, Edited.failure_map, Edited.result_map, child?, resolveItems_eq_walk]
    refine (Edited.getElem?_walk hchild).imp_left fun hwalked => ⟨hwalked, fun hnone => ?_⟩
    exact Edited.settled_of_walk hnone child (List.mem_of_getElem? hchild)

/-- **A leaf of the result.**  The leaf at a path is what the function made of the text
that was there, or the walk stopped before it came to that text. -/
theorem at?_resolveLeaves {v w : Value} {p : Path} {text : String}
    (hleaf : v.at? p = some (.str text)) (hw : (Value.str text).resolveLeaves f .done = .done w) :
    (v.resolveLeaves f .done).result.at? p = some w ∨
      (v.resolveLeaves f .done).failure ≠ none ∧
        (v.resolveLeaves f .done).result.at? p = some (.str text) := by
  induction p generalizing v with
  | nil =>
      obtain rfl := Option.some.inj hleaf
      rw [hw]
      exact Or.inl rfl
  | cons s rest ih =>
      obtain ⟨child, hchild, hrest⟩ := exists_child_of_at? hleaf
      rw [at?_cons]
      rcases child?_resolveLeaves hchild with ⟨hwalked, hsettled⟩ | ⟨hstop, hleft⟩
      · rw [hwalked]
        exact (ih hrest).imp_right (And.imp_left fun hfail hnone => hfail (hsettled hnone))
      · rw [hleft]
        exact Or.inr ⟨hstop, hrest⟩

end Value

namespace Mapping

variable {f g : String → Except Unresolved Value}

/-- Two functions that agree on the texts of a tree that hold placeholders lead to the
same walk over it. -/
theorem resolveEntries_congr_texts {k : Mapping → Edited Unresolved Mapping} {tree : Mapping}
    (h : ∀ text ∈ tree.texts, Placeholder.contains text = true → f text = g text) :
    Value.resolveEntries f k tree = Value.resolveEntries g k tree := by
  rw [texts, Value.texts_map] at h
  have hentries : ∀ entry ∈ tree, Value.resolveEntry f k entry = Value.resolveEntry g k entry := by
    intro entry hentry
    rw [Value.resolveEntry, Value.resolveEntry, Value.resolveLeaves_congr fun text ht =>
      h text (List.mem_flatMap.mpr ⟨entry, hentry, ht⟩)]
  rw [Value.resolveEntries_eq_walk, Value.resolveEntries_eq_walk, Edited.walk_congr hentries]

/-- A leaf of the tree after the walk. -/
theorem get?_resolveEntries {tree : Mapping} {p : Path} {text : String} {w : Value}
    (hleaf : tree.get? p = some (.str text))
    (hw : (Value.str text).resolveLeaves f .done = .done w) :
    Mapping.get? (Value.resolveEntries f .done tree).result p = some w ∨
      (Value.resolveEntries f .done tree).failure ≠ none ∧
        Mapping.get? (Value.resolveEntries f .done tree).result p = some (.str text) := by
  rw [get?] at hleaf
  rw [get?]
  split at hleaf
  · contradiction
  · next hp =>
      have hwalk := Value.at?_resolveLeaves hleaf hw
      rw [Value.resolveLeaves, Edited.andThen_done, Edited.failure_map, Edited.result_map] at hwalk
      rw [if_neg hp]
      exact hwalk

/-- A replacement depends on what becomes of the texts of the tree. -/
theorem mapTextEntries_congr {onto other : String → Value} {tree : Mapping}
    (h : ∀ text ∈ tree.texts, onto text = other text) :
    Value.mapTextEntries onto tree = Value.mapTextEntries other tree := by
  have hmap : (Value.map tree).mapText onto = (Value.map tree).mapText other :=
    Value.mapText_congr h
  exact Value.map.inj hmap

/-- The walk over a tree is a simultaneous replacement of its leaves. -/
theorem resolveEntries_mapText {before after : String → Value} {tree : Mapping}
    (h : ∀ text ∈ tree.texts, (before text).resolveLeaves f .done = .done (after text)) :
    Value.resolveEntries f .done (Value.mapTextEntries before tree) =
      .done (Value.mapTextEntries after tree) := by
  have hmap : (Value.map (Value.mapTextEntries before tree)).resolveLeaves f .done =
      .done (.map (Value.mapTextEntries after tree)) := Value.resolveLeaves_mapText h
  rw [Value.resolveLeaves, Edited.andThen_done] at hmap
  have hresult := Value.map.inj (congrArg Edited.result hmap)
  have hfailure : (Value.resolveEntries f .done
      (Value.mapTextEntries before tree)).failure = none := congrArg Edited.failure hmap
  rw [Edited.eq_done hfailure, hresult]

end Mapping

end LayeredConfig
