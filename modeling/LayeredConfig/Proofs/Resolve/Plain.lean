import LayeredConfig.Proofs.Placeholder.Anchor
import LayeredConfig.Proofs.Resolve.Walk
import LayeredConfig.Proofs.Tree.Merge
import LayeredConfig.Resolve.Report

/-!
# Trees without placeholders

A tree is plain if no placeholder opens in it, neither in a text nor in a key.  Merging makes
no new texts and no new keys, so it keeps a tree plain (`Value.plain_hereditary`).  All that is
done to a tree beside merging is done to placeholders, so on a plain tree it does nothing:

* there is no relative reference to anchor (`anchor_of_plain`);
* there is no text and no key to resolve, whatever the layers and the switches are
  (`resolveAll_of_plain`);
* there is nothing left to clear (`clearUnresolved_of_plain`).
-/

namespace LayeredConfig

open Placeholder

mutual

/-- No placeholder opens in the value, neither in a text nor in a key. -/
def Value.IsPlain : Value → Prop
  | .str text => Placeholder.Plain text
  | .seq items => Value.IsPlainItems items
  | .map entries => Value.IsPlainEntries entries
  | _ => True

/-- No placeholder opens in an item. -/
def Value.IsPlainItems : List Value → Prop
  | [] => True
  | v :: rest => v.IsPlain ∧ Value.IsPlainItems rest

/-- No placeholder opens in an entry. -/
def Value.IsPlainEntries : List (String × Value) → Prop
  | [] => True
  | (name, v) :: rest => (Placeholder.Plain name ∧ v.IsPlain) ∧ Value.IsPlainEntries rest

end

mutual

/-- Whether a value is plain is decided by going through it. -/
def Value.decidablePlain : (v : Value) → Decidable v.IsPlain
  | .null | .bool _ | .int _ | .float _ => isTrue trivial
  | .str text => inferInstanceAs (Decidable (Placeholder.Plain text))
  | .seq items => Value.decidablePlainItems items
  | .map entries => Value.decidablePlainEntries entries

/-- Whether items are plain. -/
def Value.decidablePlainItems : (items : List Value) → Decidable (Value.IsPlainItems items)
  | [] => isTrue trivial
  | v :: rest =>
    have := v.decidablePlain
    have := Value.decidablePlainItems rest
    inferInstanceAs (Decidable (_ ∧ _))

/-- Whether entries are plain. -/
def Value.decidablePlainEntries :
    (entries : List (String × Value)) → Decidable (Value.IsPlainEntries entries)
  | [] => isTrue trivial
  | (name, v) :: rest =>
    have := v.decidablePlain
    have := Value.decidablePlainEntries rest
    inferInstanceAs (Decidable ((Placeholder.Plain name ∧ _) ∧ _))

end

instance (v : Value) : Decidable v.IsPlain :=
  v.decidablePlain

namespace Value

/-- A sequence is plain if its items are. -/
theorem plain_seq {items : List Value} : (Value.seq items).IsPlain ↔ ∀ v ∈ items, v.IsPlain := by
  have hitems : IsPlainItems items ↔ ∀ v ∈ items, v.IsPlain := by
    induction items with
    | nil => simp [IsPlainItems]
    | cons v rest ih => rw [IsPlainItems, ih, List.forall_mem_cons]
  rw [Value.IsPlain, hitems]

/-- A mapping is plain if its keys and its values are. -/
theorem plain_map {entries : Mapping} :
    (Value.map entries).IsPlain ↔ ∀ entry ∈ entries, Placeholder.Plain entry.1 ∧ entry.2.IsPlain := by
  have hentries : IsPlainEntries entries ↔
      ∀ entry ∈ entries, Placeholder.Plain entry.1 ∧ entry.2.IsPlain := by
    induction entries with
    | nil => simp [IsPlainEntries]
    | cons entry rest ih => rw [IsPlainEntries, ih, List.forall_mem_cons]
  rw [Value.IsPlain, hentries]

/-- **Merging keeps trees plain.** -/
theorem plain_hereditary : Hereditary Value.IsPlain Placeholder.Plain where
  items := plain_seq
  entries := plain_map.mp
  insert := by
    intro m name v hm hname hv
    refine plain_map.mpr fun entry hentry => ?_
    rcases Mapping.mem_insert hentry with rfl | hold
    · exact ⟨hname, hv⟩
    · exact plain_map.mp hm entry hold

/-- The texts of a plain value are plain. -/
theorem IsPlain.of_mem_texts {v : Value} (hv : v.IsPlain) :
    ∀ text ∈ v.texts, Placeholder.Plain text := by
  induction v using tree_induction with
  | text text =>
      intro other hother
      obtain rfl : other = text := by simpa using hother
      exact hv
  | other v hcomposite hother =>
      intro text htext
      simp [texts_of_scalar hcomposite, hother] at htext
  | seq items ih =>
      intro text htext
      rw [texts_seq] at htext
      obtain ⟨v, hmem, htext⟩ := List.mem_flatMap.mp htext
      exact ih v hmem (plain_seq.mp hv v hmem) text htext
  | map entries ih =>
      intro text htext
      rw [texts_map] at htext
      obtain ⟨entry, hmem, htext⟩ := List.mem_flatMap.mp htext
      exact ih entry hmem (plain_map.mp hv entry hmem).2 text htext

end Value

variable {tree : Mapping}

/-! ## Anchoring -/

/-- **Nothing is anchored** in a plain tree. -/
theorem Mapping.anchor_of_plain (htree : (Value.map tree).IsPlain) :
    tree.anchor = ⟨.done tree, 0⟩ :=
  anchor_of_kept fun text htext => hasRelative_of_plain (htree.of_mem_texts text htext)

/-! ## Resolving -/

/-- A chain of edits that do nothing does nothing. -/
theorem Edited.foldl_of_idle {ε α β : Type} {step : β → α → Edited ε β} {b : β} {as : List α}
    (h : ∀ a ∈ as, step b a = .done b) : Edited.foldl step b as = .done b := by
  induction as with
  | nil => rfl
  | cons a as ih =>
      rw [foldl, h a List.mem_cons_self, done_andThen]
      exact ih fun a' ha' => h a' (List.mem_cons_of_mem _ ha')

/-- A walk over members that stay leaves the list. -/
theorem Edited.walk_of_idle {ε α : Type} {edit : α → Edited ε α} {as : List α}
    (h : ∀ a ∈ as, edit a = .done a) : Edited.walk edit as = .done as := by
  have hwalk : walk edit (as.map id) = .done (as.map id) := walk_map_done h
  rwa [List.map_id] at hwalk

/-- Keys without placeholders are not resolved, whether that is asked for or not. -/
theorem resolveKeys_of_plain (enabled : Bool) (value : String → Except Unresolved Value)
    (htree : (Value.map tree).IsPlain) : resolveKeys enabled value tree = .done tree := by
  have hnone : tree.keys.filter Placeholder.contains = [] := by
    refine List.filter_eq_nil_iff.mpr fun name hname => ?_
    obtain ⟨entry, hentry, rfl⟩ := List.mem_map.mp hname
    rw [contains_of_plain (Value.plain_map.mp htree entry hentry).1]
    exact Bool.false_ne_true
  rw [resolveKeys, hnone]
  cases enabled <;> rfl

namespace Value

variable {f : String → Except Unresolved Value} {k : Mapping → Edited Unresolved Mapping}

/-- A walk leaves the entries of a mapping if it leaves their values. -/
theorem resolveEntries_of_idle {entries : Mapping}
    (h : ∀ entry ∈ entries, entry.2.resolveLeaves f k = .done entry.2) :
    resolveEntries f k entries = .done entries := by
  rw [resolveEntries_eq_walk]
  refine Edited.walk_of_idle fun entry hmem => ?_
  rw [resolveEntry, h entry hmem, Edited.done_map]

/-- A walk does nothing to a plain value, if nothing is done to the keys of plain mappings. -/
theorem IsPlain.resolveLeaves {v : Value} (hv : v.IsPlain)
    (hk : ∀ m : Mapping, (Value.map m).IsPlain → k m = .done m) :
    v.resolveLeaves f k = .done v := by
  induction v using tree_induction with
  | text text => exact resolveLeaves_str_of_plain (contains_of_plain hv)
  | other v hcomposite hother => exact resolveLeaves_of_other hcomposite hother
  | seq items ih =>
      have hitems : Edited.walk (Value.resolveLeaves f k) items = .done items :=
        Edited.walk_of_idle fun v hmem => ih v hmem (plain_seq.mp hv v hmem)
      rw [Value.resolveLeaves, resolveItems_eq_walk, hitems, Edited.done_map]
  | map entries ih =>
      have hentries : resolveEntries f k entries = .done entries :=
        resolveEntries_of_idle fun entry hmem => ih entry hmem (plain_map.mp hv entry hmem).2
      rw [Value.resolveLeaves, hentries, Edited.done_andThen, hk _ hv, Edited.done_map]

end Value

/-- **Nothing is resolved** in a plain tree, by no resolver. -/
theorem Resolver.resolveAll_of_plain (r : Resolver) (htree : (Value.map tree).IsPlain) :
    r.resolveAll tree = .done tree := by
  have hkeys : ∀ m : Mapping, (Value.map m).IsPlain →
      resolveKeys r.options.keyResolution
        (r.resolveScalarBy (resolveText Trail.admits r reentryLimit)) m = .done m :=
    fun _ => resolveKeys_of_plain _ _
  refine Edited.foldl_of_idle fun pass _ => ?_
  rw [resolvePassBy, Value.resolveEntries_of_idle fun entry hmem =>
    (Value.plain_map.mp htree entry hmem).2.resolveLeaves hkeys, Edited.done_andThen, hkeys _ htree]

/-! ## Clearing -/

/-- Clearing leaves a tree whose texts hold no placeholder. -/
theorem Mapping.clearUnresolved_of_resolved
    (h : ∀ text ∈ tree.texts, Placeholder.contains text = false) : tree.clearUnresolved = tree := by
  have hkept : (Value.map tree).mapText clearText = .map tree :=
    Value.mapText_of_kept fun text htext => by rw [clearText, h text htext]; rfl
  exact Value.map.inj hkept

/-- **Nothing is cleared** in a plain tree. -/
theorem Mapping.clearUnresolved_of_plain (htree : (Value.map tree).IsPlain) :
    tree.clearUnresolved = tree :=
  clearUnresolved_of_resolved fun text htext => contains_of_plain (htree.of_mem_texts text htext)

end LayeredConfig
