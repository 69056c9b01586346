import LayeredConfig.Proofs.Resolve.Snapshot

/-!
# A tree resolves leaf by leaf

A tree is resolved in place, and values that are put in are resolved themselves before they
are, as trees of their own.  Nothing of that carries over from one leaf to the next: the trail
is empty at every leaf of the tree, and the layer does not change.  So against one layer, with
keys left alone, the tree becomes what its leaves become alone, and the first leaf in document
order that does not resolve decides how resolution fails.

* `resolveAll_eq_walk`: resolving a tree is a walk that resolves every leaf alone.  The walk
  passes over texts without placeholders, but they resolve to themselves;
* `failure_resolveAll_eq_some_iff` and `resolveAll_eq_done_iff`: which leaf it fails at, and
  what it comes to if there is none;
* `trees_resolve_leaf_by_leaf`: when a tree resolves, to what, and how it fails.
-/

namespace LayeredConfig

open Placeholder

namespace Resolver

/-- What a text becomes if it is resolved alone.  A text that does not resolve stays. -/
def resolvedText (r : Resolver) (text : String) : Value :=
  (r.resolveScalar text).toOption.getD (.str text)

variable {r : Resolver} {pass : Pass} {text : String}

/-- A leaf whose text resolves becomes the value. -/
theorem resolveLeaves_str_of_ok (hr : r.passes = [pass]) {v : Value}
    (h : r.resolveScalar text = .ok v) :
    (Value.str text).resolveLeaves r.resolveScalar .done = .done v := by
  by_cases hcontains : contains text = true
  · rw [Value.resolveLeaves, if_pos hcontains, h]
  · have hplain : contains text = false := by simpa using hcontains
    rw [resolveScalar_of_plain hr hplain] at h
    rw [Value.resolveLeaves_str_of_plain hplain, Except.ok.inj h]

/-- A leaf whose text does not resolve stays. -/
theorem resolveLeaves_str_of_error (hr : r.passes = [pass]) {e : Unresolved}
    (h : r.resolveScalar text = .error e) :
    (Value.str text).resolveLeaves r.resolveScalar .done = .stop (.str text) e := by
  have hcontains : contains text = true := by
    by_contra hplain
    rw [resolveScalar_of_plain hr (by simpa using hplain)] at h
    contradiction
  rw [Value.resolveLeaves, if_pos hcontains, h]

/-- The walk stops at a leaf exactly if its text does not resolve. -/
theorem failure_resolveLeaves_str (hr : r.passes = [pass]) (text : String) (e : Unresolved) :
    ((Value.str text).resolveLeaves r.resolveScalar .done).failure = some e ↔
      r.resolveScalar text = .error e := by
  cases hvalue : r.resolveScalar text with
  | ok v => simp [resolveLeaves_str_of_ok hr hvalue]
  | error e' => simp [resolveLeaves_str_of_error hr hvalue, Edited.stop]

/-- **Resolving a tree** is a walk that resolves every leaf alone. -/
theorem resolveAll_eq_walk (hr : r.passes = [pass]) (hkeys : r.options.keyResolution = false)
    (tree : Mapping) :
    (Value.map tree).resolveLeaves r.resolveScalar .done = (r.resolveAll tree).map .map := by
  have hscalar : r.resolveScalar = resolveText Trail.admits r reentryLimit [] pass := by
    funext text
    rw [resolveScalar_eq_auditedText hr, resolveText_reentryLimit hr]
  rw [resolveAll, resolveAllBy_singleton hr hkeys, Value.resolveLeaves, Edited.andThen_done,
    hscalar]

/-- A tree fails with the first failure among its texts. -/
theorem failure_resolveAll (hr : r.passes = [pass]) (hkeys : r.options.keyResolution = false)
    (tree : Mapping) :
    (r.resolveAll tree).failure = tree.texts.findSome? fun text =>
      ((Value.str text).resolveLeaves r.resolveScalar .done).failure := by
  have hwalk := congrArg Edited.failure (resolveAll_eq_walk hr hkeys tree)
  rw [Value.failure_resolveLeaves] at hwalk
  exact hwalk.symm

/-- A tree whose texts all resolve becomes what they become alone. -/
theorem resolveAll_of_resolves (hr : r.passes = [pass]) (hkeys : r.options.keyResolution = false)
    {tree : Mapping} (h : ∀ text ∈ tree.texts, ∃ v, r.resolveScalar text = .ok v) :
    r.resolveAll tree = .done (Value.mapTextEntries r.resolvedText tree) := by
  have hleaf : ∀ text ∈ tree.texts,
      (Value.str text).resolveLeaves r.resolveScalar .done = .done (r.resolvedText text) := by
    intro text htext
    obtain ⟨v, hv⟩ := h text htext
    rw [resolveLeaves_str_of_ok hr hv, resolvedText, hv]
    rfl
  have hwalk : ((Value.map tree).mapText .str).resolveLeaves r.resolveScalar .done =
      .done ((Value.map tree).mapText r.resolvedText) := Value.resolveLeaves_mapText hleaf
  rw [Value.mapText_str, resolveAll_eq_walk hr hkeys] at hwalk
  have hresult := Value.map.inj (congrArg Edited.result hwalk)
  have hfailure : (r.resolveAll tree).failure = none := congrArg Edited.failure hwalk
  rw [Edited.eq_done hfailure, hresult]

/-- **A tree resolves exactly if all of its texts do**, and then every leaf becomes what its
text becomes alone. -/
theorem resolveAll_eq_done_iff (hr : r.passes = [pass])
    (hkeys : r.options.keyResolution = false) (tree out : Mapping) :
    r.resolveAll tree = .done out ↔
      (∀ text ∈ tree.texts, ∃ v, r.resolveScalar text = .ok v) ∧
        out = Value.mapTextEntries r.resolvedText tree := by
  constructor
  · intro h
    have hnone := (failure_resolveAll hr hkeys tree).symm.trans (congrArg Edited.failure h)
    have hresolves : ∀ text ∈ tree.texts, ∃ v, r.resolveScalar text = .ok v := by
      intro text htext
      cases hvalue : r.resolveScalar text with
      | ok v => exact ⟨v, rfl⟩
      | error e =>
          have hleaf := List.findSome?_eq_none_iff.mp hnone text htext
          rw [(failure_resolveLeaves_str hr text e).mpr hvalue] at hleaf
          contradiction
    refine ⟨hresolves, Edited.done_inj (ε := Unresolved) ?_⟩
    rw [← h, resolveAll_of_resolves hr hkeys hresolves]
  · rintro ⟨hresolves, rfl⟩
    exact resolveAll_of_resolves hr hkeys hresolves

/-- **A tree fails with the error of the first text** in document order that does not
resolve. -/
theorem failure_resolveAll_eq_some_iff (hr : r.passes = [pass])
    (hkeys : r.options.keyResolution = false) (tree : Mapping) (e : Unresolved) :
    (r.resolveAll tree).failure = some e ↔
      ∃ front text behind, tree.texts = front ++ text :: behind ∧
        (∀ other ∈ front, ∃ v, r.resolveScalar other = .ok v) ∧
        r.resolveScalar text = .error e := by
  rw [failure_resolveAll hr hkeys, List.findSome?_eq_some_iff]
  refine exists_congr fun front => exists_congr fun text => exists_congr fun behind =>
    and_congr_right fun _ => ?_
  rw [failure_resolveLeaves_str hr text e, and_comm]
  refine and_congr_left fun _ => forall_congr' fun other => imp_congr_right fun _ => ?_
  cases hvalue : r.resolveScalar other with
  | ok v => simp [resolveLeaves_str_of_ok hr hvalue]
  | error e' => simp [resolveLeaves_str_of_error hr hvalue, Edited.stop]

end Resolver

/-- A tree that differs from another one in what a function makes of its texts, and in nothing
else: mappings have the same keys in the same order, sequences the same length, and other
scalars stay. -/
structure Mapping.Leafwise (f : String → Except Unresolved Value) (tree out : Mapping) :
    Prop where
  keys : out.keys = tree.keys
  mapping : ∀ p entries, tree.get? p = some (.map entries) →
    ∃ entries' : Mapping, out.get? p = some (.map entries') ∧
      entries'.keys = Mapping.keys entries
  sequence : ∀ p items, tree.get? p = some (.seq items) →
    ∃ items', out.get? p = some (.seq items') ∧ items'.length = items.length
  text : ∀ p text, tree.get? p = some (.str text) →
    ∃ v, f text = .ok v ∧ out.get? p = some v
  scalar : ∀ p v, tree.get? p = some v → v.isComposite = false → v.asString? = none →
    out.get? p = some v

theorem Mapping.text_mem_of_get? {tree : Mapping} {p : Path} {text : String}
    (h : tree.get? p = some (.str text)) : text ∈ tree.texts := by
  rw [get?] at h
  split at h
  · contradiction
  · exact Value.texts_subset_of_at? h (by simp)

/-- A tree that resolves changes in its leaves alone. -/
theorem Resolver.leafwise_resolvedText {r : Resolver} {tree : Mapping}
    (h : ∀ text ∈ tree.texts, ∃ v, r.resolveScalar text = .ok v) :
    tree.Leafwise r.resolveScalar (Value.mapTextEntries r.resolvedText tree) where
  keys := (Mapping.sameShape_mapTextEntries _ tree).keys
  mapping := (Mapping.sameShape_mapTextEntries _ tree).mapping
  sequence := (Mapping.sameShape_mapTextEntries _ tree).sequence
  text := by
    intro p text hp
    obtain ⟨v, hv⟩ := h text (Mapping.text_mem_of_get? hp)
    have hbecomes : (Value.str text).mapText r.resolvedText = v := by
      rw [Value.mapText, resolvedText, hv]
      rfl
    exact ⟨v, hv, hbecomes ▸ Mapping.get?_mapTextEntries hp⟩
  scalar := fun _ _ => Mapping.get?_mapTextEntries_of_other

/-- **A tree resolves leaf by leaf.**  Against one layer, with keys left alone, a tree resolves
exactly if each of its texts resolves alone.  It then differs from what it was in its leaves
only, and each leaf becomes what its text becomes alone, wherever it stands; a text without
placeholders stays.  Otherwise resolution fails with the error of the first text in document
order that does not resolve. -/
theorem trees_resolve_leaf_by_leaf (nested strict : Bool) (layer : Layer) (tree : Mapping) :
    let r : Resolver := ⟨[layer], ⟨nested, strict, false⟩⟩
    (∀ out, r.resolveAll tree = .done out ↔
      (∀ text ∈ tree.texts, ∃ v, r.resolveScalar text = .ok v) ∧
        out = Value.mapTextEntries r.resolvedText tree) ∧
    (∀ out, r.resolveAll tree = .done out → tree.Leafwise r.resolveScalar out) ∧
    (∀ text, contains text = false → r.resolveScalar text = .ok (.str text)) ∧
    ∀ e, (r.resolveAll tree).failure = some e ↔
      ∃ front text behind, tree.texts = front ++ text :: behind ∧
        (∀ other ∈ front, ∃ v, r.resolveScalar other = .ok v) ∧
        r.resolveScalar text = .error e := by
  intro r
  have hr : r.passes = [⟨layer, true⟩] := rfl
  have hdone := Resolver.resolveAll_eq_done_iff hr rfl tree
  refine ⟨hdone, fun out h => ?_, fun text => Resolver.resolveScalar_of_plain hr,
    Resolver.failure_resolveAll_eq_some_iff hr rfl tree⟩
  obtain ⟨hresolves, rfl⟩ := (hdone out).mp h
  exact Resolver.leafwise_resolvedText hresolves

/-- A layer that knows a port. -/
def portLayer : Layer :=
  ⟨"ports", [("port", .int 8080)]⟩

/-- A port alone, a port inside a text, and leaves of other sorts. -/
def portTree : Mapping :=
  [("list", .seq [.str "${/port}", .str "plain", .null]), ("inner", .map [("at", .str ":${/port}")])]

/-- Two leaves that the layer does not know, behind one that it knows. -/
def lostTree : Mapping :=
  [("port", .str "${/port}"), ("gone", .str "${/gone}"), ("lost", .str "${/lost}")]

/-- Strictly one tree resolves, and of the other one the first unknown leaf is named. -/
theorem portTree_resolves_leaf_by_leaf :
    let r : Resolver := ⟨[portLayer], ⟨true, true, false⟩⟩
    (∀ text ∈ portTree.texts, ∃ v, r.resolveScalar text = .ok v) ∧
      r.resolveAll portTree = .done
        [("list", .seq [.int 8080, .str "plain", .null]), ("inner", .map [("at", .str ":8080")])] ∧
      portTree.Leafwise r.resolveScalar (r.resolveAll portTree).result ∧
      contains "plain" = false ∧ r.resolveScalar "plain" = .ok (.str "plain") ∧
      (r.resolveAll lostTree).failure = some (.missing "${/gone}") := by
  intro r
  have hr : r.passes = [⟨portLayer, true⟩] := rfl
  have hfound : (Pass.mk portLayer true).find? "/port" = some (.int 8080) := rfl
  have hexpand : r.expand Trail.admits r.auditedText [] ⟨portLayer, true⟩ "/port" (.int 8080) =
      .ok (.int 8080) := Resolver.expand_of_plain rfl (by decide)
  have hport : r.resolveScalar "${/port}" = .ok (.int 8080) := by
    have hwrap : wrap "/port" = "${/port}" := by decide
    rw [← hwrap, Resolver.resolveScalar_wrap hr (by decide) hfound, hexpand]
  have hinside : r.resolveScalar ":${/port}" = .ok (.str ":8080") := by
    have hkeys : (keys ":${/port}").eraseDups = ["/port"] := by decide
    have hput : substitute "/port" (Value.int 8080).toText ":${/port}" = ":8080" := by decide
    have hne : ":${/port}" ≠ wrap "/port" := by decide
    rw [Resolver.resolveScalar_of_flat hr (by decide), hkeys,
      foldlM_fillKey_put hfound hexpand hne, hput]
    rfl
  have hgone : r.resolveScalar "${/gone}" = .error (.missing "${/gone}") := by
    have hkeys : (keys "${/gone}").eraseDups = ["/gone"] := by decide
    have hnone : (Pass.mk portLayer true).find? "/gone" = none := rfl
    have hwrap : wrap "/gone" = "${/gone}" := by decide
    rw [Resolver.resolveScalar_of_flat hr (by decide), hkeys, List.foldlM_cons,
      fillKey_of_find?_eq_none hnone, hwrap]
    rfl
  obtain ⟨hdone, hleafwise, hplain, -⟩ := trees_resolve_leaf_by_leaf true true portLayer portTree
  have hword : r.resolveScalar "plain" = .ok (.str "plain") := hplain "plain" rfl
  have hresolves : ∀ text ∈ portTree.texts, ∃ v, r.resolveScalar text = .ok v := by
    have htexts : portTree.texts = ["${/port}", "plain", ":${/port}"] := rfl
    rw [htexts]
    simp only [List.forall_mem_cons]
    exact ⟨⟨_, hport⟩, ⟨_, hword⟩, ⟨_, hinside⟩, nofun⟩
  have hout : Value.mapTextEntries r.resolvedText portTree =
      [("list", .seq [.int 8080, .str "plain", .null]), ("inner", .map [("at", .str ":8080")])] := by
    simp only [portTree, Value.mapTextEntries, Value.mapText, Value.mapTextItems,
      Resolver.resolvedText, hport, hinside, hword]
    rfl
  have hall := (hdone _).mpr ⟨hresolves, rfl⟩
  refine ⟨hresolves, hout ▸ hall, ?_, rfl, hword, ?_⟩
  · rw [hall]
    exact hleafwise _ hall
  · refine ((trees_resolve_leaf_by_leaf true true portLayer lostTree).2.2.2 _).mpr ?_
    refine ⟨["${/port}"], "${/gone}", ["${/lost}"], rfl, ?_, hgone⟩
    rw [List.forall_mem_singleton]
    exact ⟨_, hport⟩

end LayeredConfig
