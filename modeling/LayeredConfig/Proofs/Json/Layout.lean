import LayeredConfig.Proofs.Json.Spelling
import LayeredConfig.Proofs.Tree.Leaves

/-!
# Layouts

A layout writes scalars in the one way that there is, and decides only where blanks stand: in
front of the parts of a container, behind the last of them, and between a key and its value.
Whatever it decides, perhaps from how deep the container lies, the text spells the value
(`Layout.spells`), unless there are floats in it.

No mapping of the value may hold a key twice, of which the reader would keep the last value, and
its containers nest no deeper than the reader goes (`Value.depth`).

The compact layout, which has no blanks at all, is one of them (`compact_layout`).
-/

namespace LayeredConfig

mutual

/-- The number of containers that are open at once in the text of a value. -/
def Value.depth : Value → Nat
  | .seq items => Value.depthOfItems items + 1
  | .map entries => Value.depthOfEntries entries + 1
  | _ => 0

/-- The depth of the deepest item. -/
def Value.depthOfItems : List Value → Nat
  | [] => 0
  | v :: rest => max v.depth (Value.depthOfItems rest)

/-- The depth of the deepest value of a mapping. -/
def Value.depthOfEntries : List (String × Value) → Nat
  | [] => 0
  | (_, v) :: rest => max v.depth (Value.depthOfEntries rest)

end

namespace Value

theorem depth_le_depthOfItems {items : List Value} {v : Value} (h : v ∈ items) :
    v.depth ≤ depthOfItems items := by
  induction items with
  | nil => contradiction
  | cons head rest ih =>
      rw [depthOfItems]
      rcases List.mem_cons.mp h with rfl | h
      · exact Nat.le_max_left _ _
      · exact Nat.le_trans (ih h) (Nat.le_max_right _ _)

theorem depth_le_depthOfEntries {entries : Mapping} {entry : String × Value}
    (h : entry ∈ entries) : entry.2.depth ≤ depthOfEntries entries := by
  induction entries with
  | nil => contradiction
  | cons head rest ih =>
      rw [depthOfEntries]
      rcases List.mem_cons.mp h with rfl | h
      · exact Nat.le_max_left _ _
      · exact Nat.le_trans (ih h) (Nat.le_max_right _ _)

end Value

namespace Json

/-- Blanks in front of a spelling spell the same. -/
theorem Spells.blanks {n : Nat} {v : Value} {cs : List Char} (h : Spells n v cs)
    {blanks : List Char} (hblanks : blanks.all isSpace = true) : Spells n v (blanks ++ cs) := by
  induction blanks with
  | nil => exact h
  | cons b blanks ih =>
      obtain ⟨hb, hrest⟩ := Bool.and_eq_true_iff.mp hblanks
      exact .blank hb (ih hrest)

/-- A layout of values, each at a depth of containers. -/
structure Layout (write : Nat → Value → List Char) : Prop where
  scalar : ∀ depth v, v.isComposite = false → write depth v = compact v
  seq : ∀ depth items, ∃ before behind, before.all isSpace = true ∧ behind.all isSpace = true ∧
    write depth (.seq items) = '[' :: ([','].intercalate
      (items.map fun v => before ++ write (depth + 1) v) ++ (behind ++ [']']))
  map : ∀ depth entries, ∃ before between behind, before.all isSpace = true ∧
    between.all isSpace = true ∧ behind.all isSpace = true ∧
    write depth (.map entries) = '\x7b' :: ([','].intercalate (entries.map fun entry =>
      before ++ (Text.quoted entry.1 ++ ':' :: (between ++ write (depth + 1) entry.2))) ++
        (behind ++ ['\x7d']))

/-- **A layout spells its value.** -/
theorem Layout.spells {write : Nat → Value → List Char} (hwrite : Layout write) {v : Value}
    (hkeys : v.WellFormed) {here : Path} (hfloats : ∀ leaf ∈ v.leavesFrom here, leaf.2.kind ≠ .float)
    {n : Nat} (hdepth : v.depth ≤ n) (depth : Nat) : Spells n v (write depth v) := by
  induction v using Value.tree_induction generalizing here n depth with
  | text text =>
      rw [hwrite.scalar depth _ rfl]
      exact .str text
  | other v hcomposite hstr =>
      rw [hwrite.scalar depth v hcomposite]
      cases v with
      | null => exact .null
      | bool b => exact .bool b
      | int i => exact .int i
      | float x => exact absurd rfl (hfloats (here, .float x) (List.mem_singleton.mpr rfl))
      | str text => contradiction
      | seq items => contradiction
      | map entries => contradiction
  | seq items ih =>
      obtain ⟨n, rfl⟩ : ∃ m, n = m + 1 := by
        rw [Value.depth] at hdepth
        exact ⟨n - 1, by omega⟩
      obtain ⟨before, behind, hbefore, hbehind, htext⟩ := hwrite.seq depth items
      have hitems : ∀ v ∈ items, Spells n v (before ++ write (depth + 1) v) := by
        intro v hv
        have hle : v.depth ≤ n :=
          Nat.le_trans (Value.depth_le_depthOfItems hv) (Nat.le_of_succ_le_succ hdepth)
        obtain ⟨i, hi⟩ := List.mem_iff_getElem?.mp hv
        have hfree : ∀ leaf ∈ v.leavesFrom (here ++ [.index (0 + i)]), leaf.2.kind ≠ .float :=
          fun leaf hleaf => hfloats leaf (Value.mem_leavesOfItems.mpr ⟨i, v, hi, hleaf⟩)
        exact (ih v hv (Value.wellFormed_seq.mp hkeys v hv) hfree hle _).blanks hbefore
      rw [htext]
      exact .seq hitems hbehind
  | map entries ih =>
      obtain ⟨n, rfl⟩ : ∃ m, n = m + 1 := by
        rw [Value.depth] at hdepth
        exact ⟨n - 1, by omega⟩
      obtain ⟨hnodup, hvalues⟩ := Value.wellFormed_map.mp hkeys
      obtain ⟨before, between, behind, hbefore, hbetween, hbehind, htext⟩ :=
        hwrite.map depth entries
      have hentries : ∀ entry ∈ entries,
          Spells n entry.2 (between ++ write (depth + 1) entry.2) := by
        intro entry hentry
        have hle : entry.2.depth ≤ n :=
          Nat.le_trans (Value.depth_le_depthOfEntries hentry) (Nat.le_of_succ_le_succ hdepth)
        have hfree : ∀ leaf ∈ entry.2.leavesFrom (here ++ [.key entry.1]),
            leaf.2.kind ≠ .float :=
          fun leaf hleaf => hfloats leaf (Value.mem_leavesOfEntries.mpr ⟨entry, hentry, hleaf⟩)
        exact (ih entry hentry (hvalues entry hentry) hfree hle _).blanks hbetween
      rw [htext]
      exact @Spells.map _ _ (fun v => between ++ write (depth + 1) v) _ _ hnodup hentries hbefore
        hbehind

/-- What writes a list part by part, with a comma in front of all but the first, puts commas
between the parts. -/
theorem eq_intercalate {α : Type} {write : List α → List Char} {part : α → List Char}
    (hnil : write [] = []) (hone : ∀ a, write [a] = part a)
    (hmore : ∀ a b rest, write (a :: b :: rest) = part a ++ ',' :: write (b :: rest))
    (parts : List α) : write parts = [','].intercalate (parts.map part) := by
  induction parts with
  | nil => exact hnil
  | cons a rest ih =>
      cases rest with
      | nil => rw [hone, List.map_singleton, List.intercalate_singleton]
      | cons b rest =>
          rw [hmore, ih]
          simp only [List.map_cons, List.intercalate_cons_cons, List.append_assoc,
            List.singleton_append]

/-! ## The compact layout -/

/-- The items are written with commas between them. -/
theorem compactItems_eq_intercalate (items : List Value) :
    compactItems items = [','].intercalate (items.map compact) :=
  eq_intercalate rfl (fun _ => rfl) (fun _ _ _ => rfl) items

/-- The entries are written with commas between them. -/
theorem compactEntries_eq_intercalate (entries : Mapping) :
    compactEntries entries =
      [','].intercalate (entries.map fun entry => Text.quoted entry.1 ++ ':' :: compact entry.2) :=
  eq_intercalate rfl (fun _ => rfl) (fun _ _ _ => by simp [compactEntries]) entries

/-- **The compact layout** has no blanks. -/
theorem compact_layout : Layout fun _ => compact where
  scalar := fun _ _ _ => rfl
  seq := fun _ items => by
    refine ⟨[], [], rfl, rfl, ?_⟩
    rw [compact, compactItems_eq_intercalate, List.cons_append]
    rfl
  map := fun _ entries => by
    refine ⟨[], [], [], rfl, rfl, rfl, ?_⟩
    rw [compact, compactEntries_eq_intercalate, List.cons_append]
    rfl

/-- A document that spells a value is read as the value. -/
theorem read?_of_spells {v : Value} {cs : List Char} (h : Spells nestingLimit v cs) :
    read? (String.ofList cs) = some v := by
  have hvalue := value?_of_spells h [] nofun
  rw [List.append_nil] at hvalue
  rw [read?, String.toList_ofList, readChars, hvalue]
  rfl

end Json

end LayeredConfig
