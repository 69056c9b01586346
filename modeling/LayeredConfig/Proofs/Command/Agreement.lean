import LayeredConfig.Command.Run
import LayeredConfig.Proofs.Export
import LayeredConfig.Proofs.Page.Absorb

/-!
# The verbs agree

Two verbs of the command line show a compiled tree.  One exports the whole of it, the other
prints the value at one path.  Both start from the same sources, so they fail alike as long as
the compilation fails.  Where an export comes about, whoever reads it back can look a path up
there and finds what the other verb prints, unless the path leads into the fields about the
run (`get_agrees_with_compile`).

What is printed of a value is told by its sort (`Prints`): a string as it is, another scalar as
its word or numeral, and a container as an indented text that is read back as that container.

The argument follows the tree on its way through the export: the fields leave every other path
as it was (`Mapping.get?_of_includeMeta`), and the text is read back as the tree it was written
from (`loadExport_of_outcome`), since nothing that a compilation gives holds a key twice
(`wellFormed_of_compile`).
-/

namespace LayeredConfig.Command

variable {templater : Templater} {files : FileReader} {sources : Sources} {tree : Mapping}
  {overrides : Overrides}

/-! ## Values that are printed -/

/-- What is printed of a value: strings as they are, other scalars as their word or numeral,
and containers in the indented layout, as a text that is read back as the container.  Nothing
is said of floats, which the trees here do not hold. -/
inductive Prints : Value → String → Prop
  | text (text : String) : Prints (.str text) text
  | null : Prints .null "null"
  | yes : Prints (.bool true) "true"
  | no : Prints (.bool false) "false"
  | int (i : Int64) : Prints (.int i) (toString i.toInt)
  | container {v : Value} (hcontainer : v.isComposite = true)
      (hread : Json.read? v.indentedJson = some v) : Prints v v.indentedJson

/-- A string is printed as it is. -/
theorem Prints.eq_of_str {text printed : String} (h : Prints (.str text) printed) :
    printed = text := by
  cases h with
  | text => rfl
  | container hcontainer => contradiction

/-- A container is printed in the indented layout. -/
theorem Prints.eq_of_composite {v : Value} {printed : String} (h : Prints v printed)
    (hv : v.isComposite = true) : printed = v.indentedJson := by
  cases h with
  | container => rfl
  | _ => contradiction

/-- **A value is printed by its sort**, if it is no float and its text is read back. -/
theorem prints_printedValue {v : Value} (hfloat : v.kind ≠ .float)
    (hread : Json.read? v.indentedJson = some v) : Prints v (printedValue v) := by
  cases v with
  | null => exact .null
  | bool b =>
      cases b with
      | true => exact .yes
      | false => exact .no
  | int i =>
      have hnumeral : printedValue (.int i) = toString i.toInt := Decimal.ofList_integerText i.toInt
      exact hnumeral ▸ .int i
  | float x => exact absurd rfl hfloat
  | str text => exact .text text
  | seq items => exact .container rfl hread
  | map entries => exact .container rfl hread

/-! ## What is compiled -/

/-- A prior export that is read is well formed. -/
theorem wellFormed_readPrior {name : Option String} {prior : Option Mapping}
    (h : readPrior files name = .ok prior) :
    ∀ tree, prior = some tree → (Value.map tree).WellFormed := by
  cases name with
  | none =>
      obtain rfl := Except.ok.inj h
      exact nofun
  | some name =>
      obtain ⟨text, -, h⟩ := bind_ok h
      obtain ⟨read, hload, h⟩ := bind_ok h
      obtain rfl := Except.ok.inj h
      intro tree htree
      exact Option.some.inj htree ▸ Format.json_tidy.readMapping hload

/-- **What sources compile to is well formed.** -/
theorem wellFormed_of_compile (h : sources.compile templater files = .ok (tree, overrides)) :
    (Value.map tree).WellFormed := by
  obtain ⟨texts, -, h⟩ := bind_ok h
  obtain ⟨prior, hprior, h⟩ := bind_ok h
  obtain ⟨parsed, hparsed, h⟩ := bind_ok h
  obtain ⟨compiled, hcompiled, h⟩ := bind_ok h
  have hinput : CompileInput.WellFormed
      { sources := texts, overrides := parsed, prior, settings := sources.settings } :=
    ⟨(Overrides.filed_of_parse hparsed).nested, wellFormed_readPrior hprior⟩
  obtain ⟨rfl, -⟩ := Prod.mk.inj (Except.ok.inj h)
  exact wellFormed_compile Format.yaml_tidy hinput hcompiled

/-- The export is the text of the compiled tree with the fields about the run in it. -/
theorem exportText_eq (h : sources.compile templater files = .ok (tree, overrides)) :
    sources.exportText templater files =
      match (tree.includeMeta (.ofOverrides overrides)).toExcept with
      | .ok exported => .ok (renderExport exported)
      | .error e => .error (.conflict e) := by
  rw [Sources.exportText, h]
  rfl

/-- The value at a path is looked up in the compiled tree. -/
theorem valueText_eq (h : sources.compile templater files = .ok (tree, overrides))
    {path : String} {p : Path} (hp : Path.read? path = some p) :
    sources.valueText templater files path =
      match tree.get? p with
      | some v => .ok (printedValue v)
      | none => .error (.noValue path) := by
  rw [Sources.valueText, h]
  cases hget : tree.get? p with
  | none => simp only [bind, Except.bind, hp, hget]
  | some v => simp only [bind, Except.bind, hp, hget]

/-- **An export that comes about is read back** as the compiled tree with the fields about the
run in it. -/
theorem loadExport_of_outcome {file : Option String} {out : Outcome}
    (hcompile : sources.compile templater files = .ok (tree, overrides))
    (hout : (Request.compile sources file).outcome templater files = .ok out)
    (hexportable : tree.Exportable ∨
      (tree.includeMeta (.ofOverrides overrides)).result.Exportable) :
    ∃ exported, tree.includeMeta (.ofOverrides overrides) = .done exported ∧
      (Value.map exported).WellFormed ∧ exported.Exportable ∧
      loadExport out.text = .ok exported := by
  obtain ⟨text, htext, hout⟩ := bind_ok hout
  obtain rfl := Except.ok.inj hout
  rw [exportText_eq hcompile] at htext
  split at htext
  · next exported hexported =>
      obtain rfl := Except.ok.inj htext
      have hmerged := Edited.toExcept_eq_ok hexported
      have hkeys := Mapping.wellFormed_includeMeta (wellFormed_of_compile hcompile) hmerged
      have hshown : exported.Exportable := by
        rcases hexportable with htree | hresult
        · exact htree.includeMeta hmerged
        · rwa [hmerged] at hresult
      exact ⟨exported, hmerged, hkeys, hshown,
        loadExport_append hkeys hshown.floatFree hshown.shallow (by decide)⟩
  · contradiction

/-- **The verbs agree.**  Let sources compile to a tree, let its export come about, and let
the tree be exportable, with or without the fields about the run.  Then the export is read
back as a tree that tells what comes of a path outside of those fields: if that tree holds a
value there, the value is printed by its sort, with a line feed behind it, and else the verb
fails since there is no value. -/
theorem get_agrees_with_compile {file : Option String} {out : Outcome}
    (hcompile : sources.compile templater files = .ok (tree, overrides))
    (hout : (Request.compile sources file).outcome templater files = .ok out)
    (hexportable : tree.Exportable ∨
      (tree.includeMeta (.ofOverrides overrides)).result.Exportable)
    {path : String} {p : Path} (hp : Path.read? path = some p)
    (hmeta : p.head? ≠ some (.key metaKey)) :
    ∃ exported, loadExport out.text = .ok exported ∧
      match exported.get? p with
      | some v => ∃ text, Prints v text ∧
          (Request.get sources path).outcome templater files =
            .ok { text := text ++ "\n", file := none }
      | none => (Request.get sources path).outcome templater files = .error (.noValue path) := by
  obtain ⟨exported, hmerged, hkeys, hshown, hload⟩ :=
    loadExport_of_outcome hcompile hout hexportable
  refine ⟨exported, hload, ?_⟩
  have hvalue := valueText_eq hcompile hp
  rw [← Mapping.get?_of_includeMeta hmerged hmeta] at hvalue
  rw [Request.outcome, hvalue]
  cases hget : exported.get? p with
  | none => rfl
  | some v =>
      have hprints : Prints v (printedValue v) :=
        prints_printedValue (hshown.kind_of_get? hget) (hshown.read?_of_get? hkeys hget)
      exact ⟨_, hprints, rfl⟩

/-- Two files: a source of two pages and a prior export. -/
def shopFiles : FileReader := fun name =>
  match name with
  | "shop.yaml" =>
    .ok "region: eu\nstock:\n  - 1\n  - name: ${/region}\n---\nmeta:\n  by: me"
  | "prior.json" => .ok "\x7b\"opened\": true\x7d"
  | _ => .error .notFound

/-- Sources from those files, with an override. -/
def shopSources : Sources :=
  { configs := ["shop.yaml"]
    tokens := ["region=us"]
    prior := some "prior.json"
    settings := Settings.standard }

/-- The region of the override is found in the export, and printed alone: as it is at a path that
leads to it, and within an indented text at a path that leads to the stock. -/
theorem shop_name_agrees :
    ∃ tree overrides out exported,
      shopSources.compile untemplated.templater shopFiles = .ok (tree, overrides) ∧
      tree.Exportable ∧
      (Request.compile shopSources none).outcome untemplated.templater shopFiles = .ok out ∧
      loadExport out.text = .ok exported ∧
      exported.get? [.key "stock", .index 1, .key "name"] = some (.str "us") ∧
      (Request.get shopSources "/stock[1]/name").outcome untemplated.templater shopFiles =
        .ok { text := "us\n", file := none } ∧
      (Request.get shopSources "/stock").outcome untemplated.templater shopFiles =
        .ok
          { text := "[\n    1,\n    \x7b\n        \"name\": \"us\"\n    \x7d\n]\n", file := none } ∧
      (Request.get shopSources "/stock[2]").outcome untemplated.templater shopFiles =
        .error (.noValue "/stock[2]") := by
  have hname : Path.read? "/stock[1]/name" = some [.key "stock", .index 1, .key "name"] := by
    decide +kernel
  have hstock : Path.read? "/stock" = some [.key "stock"] := by decide +kernel
  have hbehind : Path.read? "/stock[2]" = some [.key "stock", .index 2] := by decide +kernel
  have hrun : ((shopSources.compile untemplated.templater shopFiles).toOption.any
      fun compiled => compiled.1.Exportable ∧
        (compiled.1.get? [.key "stock", .index 1, .key "name"]).bind Value.asString? = some "us" ∧
        ((compiled.1.get? [.key "stock"]).filter Value.isComposite).map Value.indentedJson =
          some "[\n    1,\n    \x7b\n        \"name\": \"us\"\n    \x7d\n]" ∧
        (compiled.1.get? [.key "stock", .index 2]).isNone) = true := by decide +kernel
  have hexports : ((Request.compile shopSources none).outcome untemplated.templater
      shopFiles).toOption.any (fun _ => true) = true := by decide +kernel
  obtain ⟨⟨tree, overrides⟩, hcompile, hfacts⟩ := exists_ok_of_any hrun
  obtain ⟨hexportable, hus, hitems, hnone⟩ := of_decide_eq_true hfacts
  obtain ⟨items, hitems, htext⟩ := Option.map_eq_some_iff.mp hitems
  obtain ⟨hitems, hcomposite⟩ := Option.filter_eq_some_iff.mp hitems
  obtain ⟨out, hout, -⟩ := exists_ok_of_any hexports
  obtain ⟨exported, hmerged, -, -, hback⟩ :=
    loadExport_of_outcome hcompile hout (Or.inl hexportable)
  have hget : ∀ {p : Path}, p.head? ≠ some (.key metaKey) → exported.get? p = tree.get? p :=
    Mapping.get?_of_includeMeta hmerged
  have husGet := (hget (by decide)).trans (Value.eq_str_of_asString? hus)
  have hitemsGet := (hget (by decide)).trans hitems
  have hnoneGet := (hget (by decide)).trans (Option.isNone_iff_eq_none.mp hnone)
  obtain ⟨_, hload, hnameAgrees⟩ :=
    get_agrees_with_compile hcompile hout (Or.inl hexportable) hname (by decide)
  obtain rfl := Except.ok.inj (hback.symm.trans hload)
  obtain ⟨_, hload, hstockAgrees⟩ :=
    get_agrees_with_compile hcompile hout (Or.inl hexportable) hstock (by decide)
  obtain rfl := Except.ok.inj (hback.symm.trans hload)
  obtain ⟨_, hload, hbehindAgrees⟩ :=
    get_agrees_with_compile hcompile hout (Or.inl hexportable) hbehind (by decide)
  obtain rfl := Except.ok.inj (hback.symm.trans hload)
  rw [husGet] at hnameAgrees
  rw [hitemsGet] at hstockAgrees
  rw [hnoneGet] at hbehindAgrees
  obtain ⟨name, hnamePrints, hnamePrinted⟩ := hnameAgrees
  obtain ⟨stock, hstockPrints, hstockPrinted⟩ := hstockAgrees
  obtain rfl := hnamePrints.eq_of_str
  obtain rfl := (hstockPrints.eq_of_composite hcomposite).trans htext
  exact ⟨tree, overrides, out, exported, hcompile, hexportable, hout, hback, husGet, hnamePrinted,
    hstockPrinted, hbehindAgrees⟩

end LayeredConfig.Command
