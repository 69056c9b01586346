import LayeredConfig.Proofs.Resolve.KeyNames
import LayeredConfig.Proofs.Resolve.Leafwise

/-!
# Resolving a tree with its keys

Where placeholders in keys are resolved, every mapping of a tree is changed twice: first its
values are resolved, the mappings among them with their keys, and then the keys get their
names.  A resolver with one layer that lets unknown placeholders stand finishes everywhere, so
what becomes of a value can be said by recursion on it (`Value.settle`), and resolving a tree
is that (`Resolver.resolveAll_eq_settle`).

What becomes of the keys of one mapping is said in `Renaming.Applied`.
-/

namespace LayeredConfig

open Placeholder

mutual

/-- The value with every string leaf replaced and, from the inside out, the keys of every
mapping renamed. -/
def Value.settle (onText : String → Value) (onKeys : Mapping → Mapping) : Value → Value
  | .str text => onText text
  | .seq items => .seq (Value.settleItems onText onKeys items)
  | .map entries => .map (onKeys (Value.settleEntries onText onKeys entries))
  | v => v

/-- The items of a sequence settled. -/
def Value.settleItems (onText : String → Value) (onKeys : Mapping → Mapping) :
    List Value → List Value
  | [] => []
  | v :: rest => v.settle onText onKeys :: Value.settleItems onText onKeys rest

/-- The values of a mapping settled. -/
def Value.settleEntries (onText : String → Value) (onKeys : Mapping → Mapping) :
    List (String × Value) → List (String × Value)
  | [] => []
  | (name, v) :: rest => (name, v.settle onText onKeys) :: Value.settleEntries onText onKeys rest

end

namespace Value

variable {onText : String → Value} {onKeys : Mapping → Mapping}

theorem settle_of_other {v : Value} (hv : v.isComposite = false) (hother : v.asString? = none) :
    v.settle onText onKeys = v := by
  cases v <;> first | rfl | contradiction

theorem settleItems_eq_map (items : List Value) :
    settleItems onText onKeys items = items.map (settle onText onKeys) := by
  induction items with
  | nil => rfl
  | cons v rest ih => rw [settleItems, ih, List.map_cons]

theorem settleEntries_eq_map (entries : Mapping) :
    settleEntries onText onKeys entries =
      entries.map fun entry => (entry.1, entry.2.settle onText onKeys) := by
  induction entries with
  | nil => rfl
  | cons entry rest ih => rw [settleEntries, ih, List.map_cons]

/-- **A walk that finishes everywhere** settles the value. -/
theorem resolveLeaves_eq_settle {f : String → Except Unresolved Value}
    {k : Mapping → Edited Unresolved Mapping} (hf : ∀ text, f text = .ok (onText text))
    (hplain : ∀ text, contains text = false → onText text = .str text)
    (hk : ∀ m, k m = .done (onKeys m)) (v : Value) :
    v.resolveLeaves f k = .done (v.settle onText onKeys) := by
  induction v using tree_induction with
  | text text =>
      by_cases htext : contains text = true
      · rw [resolveLeaves, if_pos htext, hf]
        rfl
      · have hplaintext : contains text = false := by simpa using htext
        rw [resolveLeaves_str_of_plain hplaintext, settle, hplain text hplaintext]
  | other v hv hother => rw [resolveLeaves_of_other hv hother, settle_of_other hv hother]
  | seq items ih =>
      have hwalk : Edited.walk (resolveLeaves f k) (items.map id) =
          .done (items.map (settle onText onKeys)) := Edited.walk_map_done ih
      rw [List.map_id] at hwalk
      rw [resolveLeaves, resolveItems_eq_walk, hwalk, Edited.done_map, settle, settleItems_eq_map]
  | map entries ih =>
      have hentry : ∀ entry ∈ entries, resolveEntry f k (id entry) =
          .done (entry.1, entry.2.settle onText onKeys) := by
        intro entry hentry
        rw [id, resolveEntry, ih entry hentry, Edited.done_map]
      have hwalk := Edited.walk_map_done hentry
      rw [List.map_id, ← settleEntries_eq_map] at hwalk
      rw [resolveLeaves, resolveEntries_eq_walk, hwalk, Edited.done_andThen, hk, Edited.done_map,
        settle]

end Value

/-- Where all keys resolve, a mapping gets their texts for names. -/
theorem resolveKeys_eq_renameAll {value : String → Except Unresolved Value} {name : String → Value}
    (h : ∀ key, value key = .ok (name key)) (m : Mapping) :
    resolveKeys true value m = .done (m.renameAll fun key => (name key).toText) := by
  rw [resolveKeys, if_pos rfl, Mapping.renameAll]
  refine Edited.foldl_done (fun cur key => ?_) m _
  rw [h]
  dsimp only
  split <;> rfl

namespace Resolver

variable {r : Resolver} {pass : Pass}

/-- Against one layer every text resolves, if unknown placeholders may stand. -/
theorem resolveScalar_eq_ok (hr : r.passes = [pass])
    (hlenient : r.options.failOnUnresolvable = false) (text : String) :
    r.resolveScalar text = .ok (r.resolvedText text) := by
  cases hvalue : r.resolveScalar text with
  | ok v =>
      rw [resolvedText, hvalue]
      rfl
  | error e =>
      have hstrict := (resolveScalar_error hr hvalue).1
      rw [hlenient] at hstrict
      contradiction

/-- What becomes of a value whose leaves and keys are resolved. -/
def settled (r : Resolver) (v : Value) : Value :=
  v.settle r.resolvedText (Mapping.renameAll fun key => (r.resolvedText key).toText)

/-- **Resolving a tree with its keys** settles it. -/
theorem resolveAll_eq_settled (hr : r.passes = [pass])
    (hlenient : r.options.failOnUnresolvable = false) (hkeys : r.options.keyResolution = true)
    (tree : Mapping) :
    (r.resolveAll tree).map .map = .done (r.settled (.map tree)) := by
  have hscalar : r.resolveScalar = resolveText Trail.admits r reentryLimit [] pass := by
    funext text
    rw [resolveScalar_eq_auditedText hr, resolveText_reentryLimit hr]
  have hwalk : (Value.map tree).resolveLeaves r.resolveScalar
      (resolveKeys true r.resolveScalar) = .done (r.settled (.map tree)) :=
    Value.resolveLeaves_eq_settle (resolveScalar_eq_ok hr hlenient)
      (fun text htext => by rw [resolvedText, resolveScalar_of_plain hr htext]; rfl)
      (resolveKeys_eq_renameAll (resolveScalar_eq_ok hr hlenient)) _
  have hpass : r.resolveAll tree = (Value.resolveEntries r.resolveScalar
      (resolveKeys true r.resolveScalar) tree).andThen (resolveKeys true r.resolveScalar) := by
    have hone : r.resolveAll tree =
        r.resolvePassBy (resolveText Trail.admits r reentryLimit) pass tree := by
      rw [resolveAll, resolveAllBy, hr]
      exact Edited.andThen_done _
    rw [hone, resolvePassBy, hkeys, ← hscalar]
    rfl
  rw [← hwalk, hpass, Value.resolveLeaves]

end Resolver

/-- **Keys are renamed in place.**  A resolver with one layer that lets unknown placeholders
stand and resolves keys settles every value.  A tree becomes what it settles to as a mapping, and
a text what it becomes if it is resolved alone; a sequence settles item by item, and other
scalars stay.  In a mapping first the values settle and then the keys are renamed, which brings
in no value.  The keys that hold placeholders are renamed to the texts of what they become
alone, and if none of them is renamed to another key that holds a placeholder, the names, their
places and their values are those of the renaming as a whole. -/
theorem keys_are_renamed_in_place (nested : Bool) (layer : Layer) :
    let r : Resolver := ⟨[layer], ⟨nested, false, true⟩⟩
    ∃ (settled : Value → Value) (renamed : Mapping → Mapping),
      (∀ tree, ∃ out, r.resolveAll tree = .done out ∧ settled (.map tree) = .map out) ∧
      (∀ text, r.resolveScalar text = .ok (settled (.str text))) ∧
      (∀ items, settled (.seq items) = .seq (items.map settled)) ∧
      (∀ v, v.isComposite = false → v.asString? = none → settled v = v) ∧
      (∀ entries, settled (.map entries) =
        .map (renamed (entries.map fun entry => (entry.1, settled entry.2)))) ∧
      (∀ m, ∀ entry ∈ renamed m, ∃ old ∈ m, entry.2 = old.2) ∧
      ∀ m : Mapping, m.keys.Nodup →
        let ρ := m.placeholderRenaming fun key => (settled (.str key)).toText
        ρ.Apart → ρ.Applied m (renamed m) := by
  intro r
  have hr : r.passes = [⟨layer, true⟩] := rfl
  refine ⟨r.settled, Mapping.renameAll fun key => (r.resolvedText key).toText, fun tree => ?_,
    Resolver.resolveScalar_eq_ok hr rfl, fun items => ?_, fun v => Value.settle_of_other,
    fun entries => ?_, fun m entry => Mapping.exists_of_mem_renameAll,
    fun m hdistinct => Mapping.applied_renameAll hdistinct⟩
  · have hall := Resolver.resolveAll_eq_settled hr rfl rfl tree
    have hfailure : (r.resolveAll tree).failure = none := congrArg Edited.failure hall
    exact ⟨_, Edited.eq_done hfailure, (congrArg Edited.result hall).symm⟩
  · rw [Resolver.settled, Value.settle, Value.settleItems_eq_map]
    rfl
  · rw [Resolver.settled, Value.settle, Value.settleEntries_eq_map]
    rfl

/-- A layer that knows a name. -/
def nameLayer : Layer :=
  ⟨"names", [("name", .str "svc")]⟩

/-- A mapping with a placeholder for a key, which is resolved to a key behind it. -/
def serviceMapping : Mapping :=
  [("${/name}", .int 2), ("svc", .int 1), ("last", .int 3)]

/-- The name takes the place of the key behind, and the value of the placeholder. -/
theorem serviceMapping_is_renamed_in_place :
    let r : Resolver := ⟨[nameLayer], ⟨true, false, true⟩⟩
    serviceMapping.keys.Nodup ∧
    r.resolveScalar "${/name}" = .ok (.str "svc") ∧
    ∃ after, r.resolveAll serviceMapping = .done after ∧ after.keys = ["svc", "last"] ∧
      after.lookup "svc" = some (.int 2) ∧ after.lookup "last" = some (.int 3) := by
  intro r
  have hdistinct : serviceMapping.keys.Nodup := by decide
  have hname : r.resolveScalar "${/name}" = .ok (.str "svc") := by
    have hr : r.passes = [⟨nameLayer, true⟩] := rfl
    have hwrap : wrap "/name" = "${/name}" := by decide
    have hfound : (Pass.mk nameLayer true).find? "/name" = some (.str "svc") := rfl
    rw [← hwrap, Resolver.resolveScalar_wrap hr (by decide) hfound,
      Resolver.expand_str (by decide)]
    rfl
  obtain ⟨settled, renamed, htree, htext, -, hscalar, hmap, -, happlied⟩ :=
    keys_are_renamed_in_place true nameLayer
  obtain ⟨after, hafter, hsettled⟩ := htree serviceMapping
  have honto : (settled (.str "${/name}")).toText = "svc" := by
    rw [← Except.ok.inj (hname.symm.trans (htext _))]
    rfl
  have hint : ∀ i, settled (.int i) = .int i := fun i => hscalar (.int i) rfl rfl
  have hout : after = renamed serviceMapping := by
    rw [hmap] at hsettled
    rw [← Value.map.inj hsettled]
    simp [serviceMapping, hint]
  have hmoved : serviceMapping.keys.filter contains = ["${/name}"] := by decide
  have hρ := happlied serviceMapping hdistinct
  rw [Mapping.placeholderRenaming, hmoved] at hρ
  have hrenamed := hρ <| by
    intro key hkey htaken
    obtain rfl := List.mem_singleton.mp hkey
    have hself : (settled (.str "${/name}")).toText = "${/name}" := List.mem_singleton.mp htaken
    rw [honto] at hself
    exact absurd hself (by decide)
  have hkeys : (renamed serviceMapping).keys = ["svc", "last"] := by
    rw [hrenamed.order]
    simp [serviceMapping, Mapping.keys, Renaming.HoldsPlace, Renaming.newName, honto]
  have hsvc := hrenamed.value "svc" (by simp [hkeys])
  have hlast := hrenamed.value "last" (by simp [hkeys])
  simp only [Renaming.source, List.filter_cons, honto, List.filter_nil] at hsvc hlast
  rw [hout] at hafter
  exact ⟨hdistinct, hname, _, hafter, hkeys, hsvc, hlast⟩

end LayeredConfig
