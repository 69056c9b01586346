import LayeredConfig.Proofs.Override.Checking
import LayeredConfig.Proofs.Page.Absorb

/-!
# Overrides on the first page

Overrides are merged into the first page, where they take the place of whatever the page
holds, and the page is then merged into the running configuration like every other page.
That second merge does not know which of the page's values are overrides.  What an override
leaves at its path is therefore told by what a prior export had put there (`Override.Lands`):

* a scalar wins, and so does a sequence where nothing was;
* a sequence lengthens a sequence, although the override was checked against it as the
  value that it overrides;
* a null stays where a sequence should come.

The main statement is `overrides_land`.  A chained run, in which a sequence override
lengthens the sequence of the prior export, is `chained_override_lengthens`.
-/

namespace LayeredConfig

open Placeholder

/-- What an override with the value `v` leaves at its path: `before` is the configuration
that the first page met, `after` the one that it left. -/
structure Override.Lands (before after : Mapping) (p : Path) (v : Value) : Prop where
  wins : (∀ items, v ≠ .seq items) ∨ before.get? p = none → after.get? p = some v
  /-- The items that were there stay, each in its place, and the new ones go behind them. -/
  lengthens : ∀ items old, v = .seq items → before.get? p = some (.seq old) →
    ∃ old', old'.length = old.length ∧ after.get? p = some (.seq (old' ++ items))
  /-- A null does not give way to a sequence. -/
  loses : ∀ items, v = .seq items → before.get? p = some .null → after.get? p = some .null
  /-- Where a sequence comes, there is nothing else to meet. -/
  exhausts : ∀ items w, v = .seq items → before.get? p = some w →
    w = .null ∨ ∃ old, w = .seq old

namespace Compilation

section FirstPage

variable {tools : Tools} {c : Compilation} {page : Page} {tree : Mapping}

/-- The tree of the first page comes in with the overrides in it. -/
theorem overrides_of_incoming (hnext : c.nextPage? = some page) (hfirst : page.index = 0)
    (hread : tools.format.readMapping page.text = .ok tree) (hsome : c.overrides.isEmpty = false)
    {merged : Mapping} (h : c.incoming tools = some merged) :
    ∃ o, c.overrides.validate c.running tree = .done o ∧ o.apply tree = .done merged := by
  rw [incoming, hnext, Option.bind_some, pageTree_first hfirst hread] at h
  cases hvalid : (c.overrides.validate c.running tree).failure with
  | some e => simp [withOverrides, hfirst, hsome, hvalid, Except.toOption] at h
  | none =>
      refine ⟨_, Edited.eq_done hvalid, ?_⟩
      cases hmerged : ((c.overrides.validate c.running tree).result.apply tree).failure with
      | some e => simp [withOverrides, hfirst, hsome, hvalid, hmerged, Except.toOption] at h
      | none =>
          have hresult : ((c.overrides.validate c.running tree).result.apply tree).result =
              merged := by
            simpa [withOverrides, hfirst, hsome, hvalid, hmerged, Except.toOption] using h
          rw [Edited.eq_done hmerged, hresult]

/-- **The step that renders the first page** lands every override whose value is no mapping
and opens no placeholder. -/
theorem step_lands (hc : c.WellFormed) (htools : tools.format.Tidy)
    (hkeys : c.settings.keyResolution = false) (hnext : c.nextPage? = some page)
    (hfirst : page.index = 0) (hok : (c.step tools).failure = none)
    (hread : tools.format.readMapping page.text = .ok tree) (hfiled : c.overrides.Filed)
    (hapart : Overrides.Apart c.overrides.flat.keys) {entry : String × Value}
    (hentry : entry ∈ c.overrides.flat) {p : Path} (hp : Path.read? entry.1 = some p)
    (hscalar : ∀ entries, Overrides.settled c.running tree entry ≠ .map entries)
    (hplain : ∀ text ∈ (Overrides.settled c.running tree entry).texts, Plain text) :
    Override.Lands c.running (c.step tools).result.running p
      (Overrides.settled c.running tree entry) := by
  have hsome : c.overrides.isEmpty = false := by
    cases hflat : c.overrides.flat with
    | nil => exact absurd (hflat ▸ hentry) List.not_mem_nil
    | cons head rest => rw [Overrides.isEmpty, hflat]; rfl
  obtain ⟨brought, merged, hbrought, hwf, hmerged⟩ := step_merges hc htools hkeys hnext hok
  obtain ⟨o, hvalid, happly⟩ := overrides_of_incoming hnext hfirst hread hsome hbrought
  obtain ⟨hfiled', hflat, haccepted⟩ := hfiled.validate hvalid
  have hkeys' : o.flat.keys = c.overrides.flat.keys := hflat ▸ Overrides.keys_map_settled ..
  have hmem : (entry.1, Overrides.settled c.running tree entry) ∈ o.flat :=
    hflat ▸ List.mem_map_of_mem hentry
  have hpage : brought.get? p = some (Overrides.settled c.running tree entry) :=
    hfiled'.get?_apply (hkeys' ▸ hapart) happly hmem hp hscalar
  obtain ⟨name, names, hpath⟩ := hfiled.paths entry.1 (List.mem_map_of_mem hentry)
  obtain rfl : Path.ofKeys (name :: names) = p := Option.some.inj (hpath.symm.trans hp)
  have hnode := Mapping.get?_merge hwf hmerged hpage hscalar
  have hkind : ∀ w, c.running.get? (Path.ofKeys (name :: names)) = some w → w.isNull = false →
      w.kind = (Overrides.settled c.running tree entry).kind := by
    intro w hw hpresent
    have hfind : c.running.find? entry.1 = some w := by
      rw [Mapping.find?, hpath, Option.bind_some, hw]
    obtain ⟨old, hstands, hkind⟩ := Override.exists_stands_of_accepted (haccepted entry hentry)
    rw [Override.Stands.unique (.inRunning hfind hpresent) hstands]
    exact hkind
  -- from here on the override is a value of the page like any other
  generalize Overrides.settled c.running tree entry = v at hnode hkind hplain
  refine ⟨fun hcases => ?_, fun items old hseq hold => ?_, fun items hseq hold => ?_,
    fun items w hseq hw => ?_⟩
  · have hjoined :
        (c.running.get? (Path.ofKeys (name :: names))).elim v (v.joined .append) = v := by
      cases hold : c.running.get? (Path.ofKeys (name :: names)) with
      | none => rfl
      | some old =>
          have hnoseq : ∀ items, v ≠ .seq items :=
            hcases.resolve_right fun hnone => Option.some_ne_none old (hold.symm.trans hnone)
          exact Value.joined_of_not_seq hnoseq .append old
    rw [hjoined] at hnode
    exact step_plain hc htools hkeys hnext hok hbrought hmerged hnode hplain
  · subst hseq
    rw [hold] at hnode
    exact step_seq_append hc htools hkeys hnext hok hbrought hmerged hnode hplain
  · subst hseq
    rw [hold] at hnode
    exact step_plain hc htools hkeys hnext hok hbrought hmerged hnode nofun
  · subst hseq
    by_cases hnull : w.isNull = true
    · cases w <;> first | exact Or.inl rfl | cases hnull
    · have hsame := hkind w hw (by simpa using hnull)
      cases w with
      | seq old => exact Or.inr ⟨old, rfl⟩
      | _ => cases hsame

end FirstPage

end Compilation

open Compilation in
/-- **What overrides leave.**  If the first page succeeds, every override that opens no
placeholder and is no mapping wins over the page, and over a prior export unless it is a
sequence. -/
theorem overrides_land (input : CompileInput) (c : Compilation) (hstart : start input = .ok c)
    (hprior : ∀ prior, input.prior = some prior → (Value.map prior).WellFormed)
    (tools : Nat → Tools) (htools : (tools 2).format.Tidy)
    (hkeys : c.settings.keyResolution = false) {tokens : List String}
    (hparse : Overrides.parse tokens = .ok input.overrides)
    (hapart : Overrides.Apart input.overrides.flat.keys) {page : Page}
    (hnext : (c.after tools 2).nextPage? = some page)
    (hok : ((c.after tools 2).step (tools 2)).failure = none) :
    ∃ tree, (tools 2).format.readMapping page.text = .ok tree ∧
      ∀ entry ∈ input.overrides.flat, ∀ p, Path.read? entry.1 = some p →
        (∀ entries, Overrides.settled (input.prior.getD []) tree entry ≠ .map entries) →
        (∀ text ∈ (Overrides.settled (input.prior.getD []) tree entry).texts, Plain text) →
          Override.Lands (input.prior.getD []) (c.runningAfter tools 0) p
            (Overrides.settled (input.prior.getD []) tree entry) := by
  have hfiled : input.overrides.Filed := Overrides.filed_of_parse hparse
  have hinput : input.WellFormed := ⟨hfiled.nested, hprior⟩
  have hpages : splitPages c.source c.settings.pageSeparator ≠ [] := by
    intro hnil
    have hpage := nextPage?_after tools hstart hinput.distinct 0
    rw [hnext, hnil] at hpage
    cases hpage
  have htwo := after_two tools hstart hinput.distinct hpages
  have hrunning : (c.after tools 2).running = input.prior.getD [] := by rw [htwo]
  have hoverrides : (c.after tools 2).overrides = input.overrides := by
    rw [htwo]
    exact (start_eq hstart).2.1
  have hwf : (c.after tools 2).WellFormed := by
    refine ⟨?_, hoverrides ▸ hinput.overrides, fun prior h => ?_⟩
    · rw [hrunning]
      cases hcase : input.prior with
      | none => exact Value.wellFormed_map.mpr ⟨List.nodup_nil, nofun⟩
      | some prior => exact hprior prior hcase
    · rw [htwo] at h
      cases h
  have hfirst : page.index = 0 := by
    have hpage := nextPage?_after tools hstart hinput.distinct 0
    exact index_of_getElem?_splitPages (hpage.symm.trans hnext)
  have htree : ∃ tree, (tools 2).format.readMapping page.text = .ok tree := by
    obtain ⟨tree, out, hincoming, -, -⟩ := step_running hnext hok
    rw [incoming, hnext, Option.bind_some, pageTree, pageText, if_pos hfirst] at hincoming
    cases hread : (tools 2).format.readMapping page.text with
    | ok tree => exact ⟨tree, rfl⟩
    | error e => simp [bind, Except.bind, hread, Except.toOption] at hincoming
  obtain ⟨tree, hread⟩ := htree
  refine ⟨tree, hread, fun entry hentry p hp hscalar hplain => ?_⟩
  have hlands := step_lands hwf htools (by rw [settings_after]; exact hkeys) hnext hfirst hok hread
    (hoverrides ▸ hfiled) (hoverrides ▸ hapart) (hoverrides ▸ hentry) hp
    (by rw [hrunning]; exact hscalar) (by rw [hrunning]; exact hplain)
  rwa [hrunning] at hlands

/-! ## A chained run -/

/-- The texts of a sequence of strings. -/
def Value.strings? : Value → Option (List String)
  | .seq items => items.mapM Value.asString?
  | _ => none

/-- A value with texts is the sequence of their strings. -/
theorem Value.eq_seq_of_strings? {v : Option Value} {texts : List String}
    (h : v.bind strings? = some texts) : v = some (.seq (texts.map .str)) := by
  obtain ⟨w, rfl, hw⟩ := Option.bind_eq_some_iff.mp h
  cases w with
  | seq items =>
      have hitems : ∀ (items : List Value) (texts : List String),
          items.mapM asString? = some texts → items = texts.map .str := by
        intro items
        induction items with
        | nil =>
            intro texts hnil
            obtain rfl : [] = texts := Option.some.inj hnil
            rfl
        | cons v rest ih =>
            intro texts hcons
            rw [List.mapM_cons] at hcons
            obtain ⟨text, htext, hcons⟩ := Option.bind_eq_some_iff.mp hcons
            obtain ⟨more, hmore, hcons⟩ := Option.bind_eq_some_iff.mp hcons
            obtain rfl : text :: more = texts := Option.some.inj hcons
            have hv : v = .str text := Option.some.inj (eq_str_of_asString? (v := some v) htext)
            rw [hv, ih more hmore]
            rfl
      rw [hitems items texts hw]
  | _ => cases hw

/-- Tokens that can be read are read as what is left of them without the error. -/
theorem Overrides.parse_eq_ok {tokens : List String}
    (h : (Overrides.parse tokens).toOption.isSome = true) :
    Overrides.parse tokens = .ok ((Overrides.parse tokens).toOption.getD .empty) := by
  cases hcase : Overrides.parse tokens with
  | ok overrides => rfl
  | error e =>
      rw [hcase] at h
      contradiction

/-- The export that a run starts from. -/
def seedTree : Mapping :=
  [("list", .seq [.str "A"]), ("name", .str "old")]

/-- A run on top of that export, with an override for the list, one for the name, and one for a
list that only the page holds. -/
def seededInput : CompileInput :=
  { sources := ["ports: [tcp]\nother: 1\n"]
    overrides :=
      (Overrides.parse ["list=[B,C]", "name=new", "ports=[\"udp\"]"]).toOption.getD .empty
    prior := some seedTree
    settings := .standard }

/-- That run, before its first step. -/
def seededStart : Compilation :=
  { stage := .seed
    source := "ports: [tcp]\nother: 1\n"
    overrides := seededInput.overrides
    prior := some seedTree
    settings := .standard
    pages := []
    running := [] }

/-- The name wins over the export and the ports over the page; the list lands behind the exported
one. -/
theorem chained_override_lands :
    Compilation.start seededInput = .ok seededStart ∧
      Override.Lands seedTree (seededStart.runningAfter (fun _ => untemplated) 0)
        (Path.ofKeys ["list"]) (.seq [.str "B", .str "C"]) ∧
      (seededStart.runningAfter (fun _ => untemplated) 0).get? (Path.ofKeys ["name"]) =
        some (.str "new") ∧
      (seededStart.runningAfter (fun _ => untemplated) 0).get? (Path.ofKeys ["ports"]) =
        some (.seq [.str "udp"]) := by
  have hprior : ∀ prior, seededInput.prior = some prior → (Value.map prior).WellFormed := by
    intro prior hsome
    obtain rfl : seedTree = prior := Option.some.inj hsome
    simp [seedTree, Value.WellFormed, Value.WellFormedEntries, Value.WellFormedItems]
  have hparse : Overrides.parse ["list=[B,C]", "name=new", "ports=[\"udp\"]"] =
      .ok seededInput.overrides := Overrides.parse_eq_ok (by decide +kernel)
  have hpaths : seededInput.overrides.flat.keys = ["list", "name", "ports"] := by decide +kernel
  have hapart : Overrides.Apart seededInput.overrides.flat.keys := by
    rw [hpaths]
    decide
  have hnext : (seededStart.after (fun _ => untemplated) 2).nextPage? =
      some ⟨0, ["ports: [tcp]", "other: 1"]⟩ := by decide +kernel
  have hok : ((seededStart.after (fun _ => untemplated) 2).step
      untemplated).failure.isNone = true := by decide +kernel
  obtain ⟨tree, -, hlands⟩ := overrides_land seededInput seededStart rfl hprior
    (fun _ => untemplated) Format.yaml_tidy rfl hparse hapart hnext
    (Option.isNone_iff_eq_none.mp hok)
  have hlist : ("list", Value.str "[B,C]") ∈ seededInput.overrides.flat :=
    Mapping.mem_of_lookup (Value.eq_str_of_asString? (by decide +kernel))
  have hname : ("name", Value.str "new") ∈ seededInput.overrides.flat :=
    Mapping.mem_of_lookup (Value.eq_str_of_asString? (by decide +kernel))
  have hudp : (seededInput.overrides.flat.lookup "ports").bind Value.strings? = some ["udp"] := by
    decide +kernel
  have hports : ("ports", Value.seq [.str "udp"]) ∈ seededInput.overrides.flat :=
    Mapping.mem_of_lookup (Value.eq_seq_of_strings? hudp)
  -- the list is coerced, since the export holds one; the others are left as they are
  have hlistSettled : Overrides.settled seedTree tree ("list", .str "[B,C]") =
      .seq [.str "B", .str "C"] := rfl
  have hnameSettled : Overrides.settled seedTree tree ("name", .str "new") = .str "new" := rfl
  have hportsSettled : Overrides.settled seedTree tree ("ports", .seq [.str "udp"]) =
      .seq [.str "udp"] := by
    refine (Override.comesTo_settled seedTree tree _).kept fun v hmends => ?_
    obtain ⟨_, _, _, htext, _⟩ := hmends
    exact Value.noConfusion htext
  have hlistLands := hlands _ hlist (Path.ofKeys ["list"]) (by decide)
  have hnameLands := hlands _ hname (Path.ofKeys ["name"]) (by decide)
  have hportsLands := hlands _ hports (Path.ofKeys ["ports"]) (by decide)
  rw [show seededInput.prior.getD [] = seedTree from rfl] at hlistLands hnameLands hportsLands
  rw [hlistSettled] at hlistLands
  rw [hnameSettled] at hnameLands
  rw [hportsSettled] at hportsLands
  have hseq : ∀ items entries, Value.seq items ≠ .map entries := fun _ _ => Value.noConfusion
  have hstr : ∀ text, (∀ entries, Value.str text ≠ .map entries) ∧
      ∀ items, Value.str text ≠ .seq items :=
    fun _ => ⟨fun _ => Value.noConfusion, fun _ => Value.noConfusion⟩
  have hplain : ∀ text ∈ ["B", "C"] ++ (["new"] ++ ["udp"]), Plain text := by decide
  obtain ⟨hplainList, hplainRest⟩ := List.forall_mem_append.mp hplain
  obtain ⟨hplainName, hplainPorts⟩ := List.forall_mem_append.mp hplainRest
  exact ⟨rfl, hlistLands (hseq _) hplainList,
    (hnameLands (hstr _).1 hplainName).wins (Or.inl (hstr _).2),
    (hportsLands (hseq _) hplainPorts).wins (Or.inr rfl)⟩

/-- A run on top of an export that holds a list alone, with an override for the list. -/
def chainedInput : CompileInput :=
  { sources := ["other: 1\n"]
    overrides := (Overrides.parse ["list=[B,C]"]).toOption.getD .empty
    prior := some [("list", .seq [.str "A"])]
    settings := .standard }

/-- The chained run, before its first step. -/
def chainedStart : Compilation :=
  { stage := .seed
    source := "other: 1\n"
    overrides := chainedInput.overrides
    prior := chainedInput.prior
    settings := .standard
    pages := []
    running := [] }

/-- **A sequence override does not win over an export.**  In a chained run it is checked against
the exported list and becomes a list itself, whatever the page holds, and then it lengthens the
exported one. -/
theorem chained_override_lengthens :
    Overrides.parse ["list=[B,C]"] = .ok chainedInput.overrides ∧
      Compilation.start chainedInput = .ok chainedStart ∧
      ((chainedStart.after (fun _ => untemplated) 2).step untemplated).failure = none ∧
      ("list", Value.str "[B,C]") ∈ chainedInput.overrides.flat ∧
      (∀ tree, Overrides.settled [("list", .seq [.str "A"])] tree ("list", .str "[B,C]") =
        .seq [.str "B", .str "C"]) ∧
      (chainedStart.runningAfter (fun _ => untemplated) 0).get? (Path.ofKeys ["list"]) =
        some (.seq [.str "A", .str "B", .str "C"]) ∧
      (chainedStart.runningAfter (fun _ => untemplated) 0).get? (Path.ofKeys ["list"]) ≠
        some (.seq [.str "B", .str "C"]) := by
  have hok : ((chainedStart.after (fun _ => untemplated) 2).step
      untemplated).failure.isNone = true := by decide +kernel
  have hlist : (chainedStart.runningAfter (fun _ => untemplated) 0).get? (Path.ofKeys ["list"]) =
      some (.seq (["A", "B", "C"].map .str)) := Value.eq_seq_of_strings? (by decide +kernel)
  refine ⟨Overrides.parse_eq_ok (by decide +kernel), rfl, Option.isNone_iff_eq_none.mp hok,
    Mapping.mem_of_lookup (Value.eq_str_of_asString? (by decide +kernel)), fun _ => rfl, hlist,
    fun heq => ?_⟩
  have hseq := Value.seq.inj (Option.some.inj (hlist.symm.trans heq))
  exact absurd (congrArg List.length hseq) (by decide)

end LayeredConfig
