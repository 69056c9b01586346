import LayeredConfig.Export
import LayeredConfig.Proofs.Json.Layout

/-!
# Exports load back

An export is a tree in the indented layout.  The layout spells the tree, unless there are
floats in it, and the reader reads every spelling back; so the prior export of a later run
is the very tree that was exported.

Two things a tree must have for that.  No mapping of it holds a key twice, which no tree
of the program does: of a repeated key the reader keeps the last value.  And its
containers nest no deeper than the reader goes.

That the text of an export is a layout is shown in `indented_layout`.  Blanks behind it, such
as the line feed of a printed export, are passed over (`loadExport_append`).  The main statement
is `exports_load_back`.
-/

namespace LayeredConfig

namespace Json

/-! ## The indented layout -/

theorem newline_all_isSpace (depth : Nat) : (newline depth).all isSpace = true := by
  refine List.all_eq_true.mpr fun c hc => ?_
  rcases List.mem_cons.mp hc with rfl | hc
  · decide
  · rw [List.eq_of_mem_replicate hc]
    decide

/-- The items are written one a line, with commas between them. -/
theorem indentedItems_eq_intercalate (depth : Nat) (items : List Value) :
    indentedItems depth items =
      [','].intercalate (items.map fun v => newline depth ++ indented depth v) :=
  eq_intercalate rfl (fun _ => rfl) (fun _ _ _ => rfl) items

/-- The entries are written one a line, with commas between them. -/
theorem indentedEntries_eq_intercalate (depth : Nat) (entries : Mapping) :
    indentedEntries depth entries =
      [','].intercalate (entries.map fun entry =>
        newline depth ++ (Text.quoted entry.1 ++ ':' :: ' ' :: indented depth entry.2)) :=
  eq_intercalate rfl (fun _ => by simp [indentedEntries])
    (fun _ _ _ => by simp [indentedEntries]) entries

/-- **The indented layout** starts every part on a line of its own. -/
theorem indented_layout : Layout indented where
  scalar := fun _ v hv => by cases v <;> first | rfl | contradiction
  seq := fun depth items => by
    cases items with
    | nil => exact ⟨[], [], rfl, rfl, rfl⟩
    | cons v rest =>
        refine ⟨newline (depth + 1), newline depth, newline_all_isSpace _,
          newline_all_isSpace _, ?_⟩
        rw [indented, indentedItems_eq_intercalate, List.cons_append, List.cons_append,
          List.append_assoc]
  map := fun depth entries => by
    cases entries with
    | nil => exact ⟨[], [], [], rfl, rfl, rfl, rfl⟩
    | cons entry rest =>
        refine ⟨newline (depth + 1), [' '], newline depth, newline_all_isSpace _, rfl,
          newline_all_isSpace _, ?_⟩
        rw [indented, indentedEntries_eq_intercalate, List.cons_append, List.cons_append,
          List.append_assoc]
        rfl

/-- The indented layout spells its value. -/
theorem spells_indented {v : Value} (hkeys : v.WellFormed) {here : Path}
    (hfloats : ∀ leaf ∈ v.leavesFrom here, leaf.2.kind ≠ .float) {n : Nat} (hdepth : v.depth ≤ n)
    (depth : Nat) : Spells n v (indented depth v) :=
  indented_layout.spells hkeys hfloats hdepth depth

end Json

/-- **An export is read back**, whatever blanks follow the text. -/
theorem loadExport_append {tree : Mapping} (hkeys : (Value.map tree).WellFormed)
    (hfloats : ∀ leaf ∈ tree.leaves, leaf.2.kind ≠ .float)
    (hdepth : (Value.map tree).depth ≤ 127) {blanks : String}
    (hblanks : blanks.toList.all Json.isSpace = true) :
    loadExport (renderExport tree ++ blanks) = .ok tree := by
  have hspells : Json.Spells Json.nestingLimit (.map tree) (Json.indented 0 (.map tree)) :=
    Json.spells_indented hkeys hfloats hdepth 0
  have htext : (renderExport tree ++ blanks).toList =
      Json.indented 0 (.map tree) ++ blanks.toList := by
    rw [String.toList_append, renderExport]
    exact congrArg (· ++ blanks.toList) String.toList_ofList
  have hstops : Json.Stops blanks.toList := by
    have hstops : Json.Stops (blanks.toList ++ []) := Json.stops_of_blanks hblanks nofun
    rwa [List.append_nil] at hstops
  have hrest : Json.skipSpace blanks.toList = [] := by
    have hrest := Json.skipSpace_blanks hblanks []
    rwa [List.append_nil] at hrest
  have hread : Json.read? (renderExport tree ++ blanks) = some (.map tree) := by
    rw [Json.read?, htext, Json.readChars, Json.value?_of_spells hspells _ hstops]
    simp [hrest]
  have hbrace : ∃ cs, Json.indented 0 (.map tree) = '\x7b' :: cs := by
    cases tree with
    | nil => exact ⟨_, rfl⟩
    | cons entry rest => exact ⟨_, rfl⟩
  have hblank : Text.isBlankText (renderExport tree ++ blanks) = false := by
    obtain ⟨cs, hcs⟩ := hbrace
    rw [Text.isBlankText, htext, hcs]
    rfl
  have hformat : Format.json.read? (renderExport tree ++ blanks) = some (.map tree) := hread
  simp [loadExport, Format.readMapping, hblank, Format.read, hformat]

/-- **Exports load back.**  A tree without floats, in which no mapping holds a key twice and
no more than 127 containers are open at once, is what its export is read as, with its keys
in the same order. -/
theorem exports_load_back (tree : Mapping) (hkeys : (Value.map tree).WellFormed)
    (hfloats : ∀ leaf ∈ tree.leaves, leaf.2.kind ≠ .float)
    (hdepth : (Value.map tree).depth ≤ 127) :
    loadExport (renderExport tree) = .ok tree := by
  have hnone : "".toList.all Json.isSpace = true := rfl
  have hload := loadExport_append hkeys hfloats hdepth hnone
  rwa [String.append_empty] at hload

/-- All sorts of values, with keys that need escapes and containers that are empty. -/
def exportedTree : Mapping :=
  [("none", .null), ("", .bool true), ("tab\t\"quoted\"", .int (-9223372036854775808)),
    ("list", .seq [.seq [], .map [], .str "\x01 and \\ and ü"]),
    ("deep", .map [("b", .int 0), ("a", .str "")])]

/-- A tree with all of them loads back. -/
theorem exportedTree_loads_back :
    (Value.map exportedTree).WellFormed ∧
      (∀ leaf ∈ exportedTree.leaves, leaf.2.kind ≠ .float) ∧
      (Value.map exportedTree).depth ≤ 127 ∧
      loadExport (renderExport exportedTree) = .ok exportedTree := by
  have hkeys : (Value.map exportedTree).WellFormed := by
    simp [exportedTree, Value.WellFormed, Value.WellFormedEntries, Value.WellFormedItems]
  have hfloats : ∀ leaf ∈ exportedTree.leaves, leaf.2.kind ≠ .float := by decide
  have hdepth : (Value.map exportedTree).depth ≤ 127 := by decide
  exact ⟨hkeys, hfloats, hdepth, exports_load_back exportedTree hkeys hfloats hdepth⟩

end LayeredConfig
