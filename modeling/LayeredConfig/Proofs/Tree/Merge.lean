import LayeredConfig.Proofs.Tree.Write
import LayeredConfig.Tree.Merge

/-!
# What a merge does at a path

A merge goes through the keys of the source.  What it leaves under a key depends on what
the two trees hold there and on nothing else (`lookup_mergeEntries`), so along a path of
keys the whole merge comes down to one case at the end of the path:

* where the source holds a scalar or a sequence, the result holds it, joined to what was
  there (`at?_mergeEntries`);
* where the source has nothing to say, the result holds what was there
  (`at?_mergeEntries_of_spares`).

A merge keeps what comes down to keys and scalars (`Value.Hereditary`), also one that stops at
a conflict.  So a merge of well-formed trees is well formed.
-/

namespace LayeredConfig

namespace Value

/-- The value has nothing at the path, and nothing in its way but mappings. -/
def Spares (v : Value) (q : Path) : Prop :=
  v.at? q = none ∧ ∀ r, r <+: q → r ≠ q → ∀ w, v.at? r = some w → ∃ m, w = .map m

/-- A tree without the first key of a path spares the path. -/
theorem spares_of_lookup_eq_none {entries : Mapping} {name : String} (names : List String)
    (h : entries.lookup name = none) :
    (Value.map entries).Spares (Path.ofKeys (name :: names)) := by
  refine ⟨by rw [at?_ofKeys_cons, h]; rfl, fun r hr hne w hw => ?_⟩
  cases r with
  | nil => exact ⟨entries, (Option.some.inj hw).symm⟩
  | cons step rest =>
      obtain rfl : step = .key name := (List.cons_prefix_cons.mp hr).1
      simp [at?, h] at hw

/-- Below the first of several keys a tree that spares the path holds a mapping that spares
the rest of it, if it holds anything. -/
theorem Spares.child {entries : Mapping} {name next : String} {names : List String}
    (h : (Value.map entries).Spares (Path.ofKeys (name :: next :: names))) {child : Value}
    (hchild : entries.lookup name = some child) :
    ∃ m, child = .map m ∧ child.Spares (Path.ofKeys (next :: names)) := by
  obtain ⟨hend, hway⟩ := h
  have hstep : ∀ r, (Value.map entries).at? (.key name :: r) = child.at? r := by
    intro r
    rw [at?, hchild]
  obtain ⟨m, hm⟩ := hway [.key name] (by simp [Path.ofKeys]) (by simp [Path.ofKeys]) child
    (hstep [])
  refine ⟨m, hm, (hstep _).symm.trans hend, fun r hr hne w hw => ?_⟩
  refine hway (.key name :: r) ?_ ?_ w ((hstep r).trans hw)
  · exact List.cons_prefix_cons.mpr ⟨rfl, hr⟩
  · exact fun heq => hne (List.cons.inj heq).2

/-- A source value that is no mapping, joined to the value that is there. -/
def joined (strategy : MergeStrategy) (v old : Value) : Value :=
  match v with
  | .seq items => mergeItems strategy items old
  | scalar => scalar

/-- What replaces does not ask what was there. -/
theorem joined_replace (v old : Value) : v.joined .replace old = v := by
  cases v <;> rfl

/-- Only a sequence is joined to what was there. -/
theorem joined_of_not_seq {v : Value} (hv : ∀ items, v ≠ .seq items) (strategy : MergeStrategy)
    (old : Value) : v.joined strategy old = v := by
  cases v with
  | seq items => exact absurd rfl (hv items)
  | _ => rfl

end Value

/-- A value that is no mapping is merged without a conflict. -/
theorem mergeValue_of_not_map {strategy : MergeStrategy} {here : Path} {v : Value}
    (hv : ∀ entries, v ≠ .map entries) (old : Value) :
    mergeValue strategy here v old = .done (v.joined strategy old) := by
  cases v with
  | map entries => exact absurd rfl (hv entries)
  | _ => rfl

/-- A mapping is merged into a mapping, or it takes the place of a null. -/
theorem mergeValue_map {strategy : MergeStrategy} {here : Path} {source : Mapping}
    {old merged : Value} (h : mergeValue strategy here (.map source) old = .done merged) :
    (∃ entries out, old = .map entries ∧
      mergeEntries strategy here source entries = .done out ∧ merged = .map out) ∨
    old = .null ∧ merged = .map source := by
  cases old with
  | map entries =>
      have hresult : (mergeEntries strategy here source entries).map Value.map = .done merged := h
      have hfailure : (mergeEntries strategy here source entries).failure = none :=
        congrArg Edited.failure hresult
      exact Or.inl ⟨entries, _, rfl, Edited.eq_done hfailure,
        (congrArg Edited.result hresult).symm⟩
  | null => exact Or.inr ⟨rfl, (congrArg Edited.result h).symm⟩
  | _ => exact absurd (congrArg Edited.failure h) (Option.some_ne_none _)

/-- Two mappings are merged into a mapping. -/
theorem mergeValue_map_map {strategy : MergeStrategy} {here : Path} {source dest : Mapping}
    {merged : Value} (h : mergeValue strategy here (.map source) (.map dest) = .done merged) :
    ∃ out, mergeEntries strategy here source dest = .done out ∧ merged = .map out := by
  rcases mergeValue_map h with ⟨entries, out, heq, hmerge, rfl⟩ | ⟨heq, -⟩
  · obtain rfl := Value.map.inj heq
    exact ⟨out, hmerge, rfl⟩
  · contradiction

section Entries

variable {strategy : MergeStrategy} {here : Path} {source dest out : Mapping}

/-- The first entry leaves some value under its key, and the others are merged into that. -/
theorem mergeEntries_cons {key : String} {v : Value}
    (h : mergeEntries strategy here ((key, v) :: source) dest = .done out) :
    ∃ w, mergeEntries strategy here source (dest.insert key w) = .done out ∧
      (dest.lookup key = none → w = v) ∧
      ∀ old, dest.lookup key = some old →
        mergeValue strategy (here ++ [.key key]) v old = .done w := by
  rw [mergeEntries] at h
  cases hold : dest.lookup key with
  | none =>
      rw [hold] at h
      exact ⟨v, h, fun _ => rfl, by simp⟩
  | some old =>
      simp only [hold] at h
      obtain ⟨hhead, hnext⟩ := Edited.andThen_eq_done h
      refine ⟨_, hnext, by simp, fun old' hold' => ?_⟩
      obtain rfl : old = old' := Option.some.inj hold'
      exact Edited.eq_done (congrArg Edited.failure hhead)

/-- **What a merge leaves under a key**: what was there, if the source does not have the
key; the value of the source, if it is new; else the two of them merged. -/
theorem lookup_mergeEntries (hnodup : source.keys.Nodup)
    (h : mergeEntries strategy here source dest = .done out) (name : String) :
    (source.lookup name = none → out.lookup name = dest.lookup name) ∧
    (∀ v, source.lookup name = some v → dest.lookup name = none →
      out.lookup name = some v) ∧
    ∀ v old, source.lookup name = some v → dest.lookup name = some old →
      ∃ merged, mergeValue strategy (here ++ [.key name]) v old = .done merged ∧
        out.lookup name = some merged := by
  induction source generalizing dest with
  | nil =>
      obtain rfl : dest = out := congrArg Edited.result h
      simp
  | cons entry rest ih =>
      obtain ⟨key, v⟩ := entry
      obtain ⟨hfresh, hrest⟩ := List.nodup_cons.mp hnodup
      obtain ⟨w, hmerge, hnew, hmerged⟩ := mergeEntries_cons h
      obtain ⟨hkept, hadded, hjoined⟩ := ih hrest hmerge
      by_cases hname : name = key
      · subst hname
        have hgone : List.lookup name rest = none := Mapping.lookup_of_not_mem_keys hfresh
        have hout : out.lookup name = some w := by
          rw [hkept hgone, Mapping.lookup_insert_self]
        have hhead : ∀ u, List.lookup name ((name, v) :: rest) = some u → u = v := by
          intro u hu
          rw [List.lookup_cons_self] at hu
          exact (Option.some.inj hu).symm
        refine ⟨fun hnone => ?_, fun u hu hnone => ?_, fun u old hu hold => ?_⟩
        · rw [List.lookup_cons_self] at hnone
          contradiction
        · rw [hout, hhead u hu, hnew hnone]
        · exact ⟨w, hhead u hu ▸ hmerged old hold, hout⟩
      · have hsource : List.lookup name ((key, v) :: rest) = rest.lookup name := by
          rw [List.lookup_cons, beq_false_of_ne hname]
        rw [Mapping.lookup_insert_of_ne hname] at hkept hadded hjoined
        rw [hsource]
        exact ⟨hkept, hadded, hjoined⟩

/-- **The keys after a merge** are those that were there, and behind them the new ones of the
source, both in their order. -/
theorem keys_mergeEntries (hnodup : source.keys.Nodup)
    (h : mergeEntries strategy here source dest = .done out) :
    out.keys = dest.keys ++ source.keys.filter (· ∉ dest.keys) := by
  induction source generalizing dest with
  | nil =>
      obtain rfl : dest = out := congrArg Edited.result h
      exact (List.append_nil _).symm
  | cons entry rest ih =>
      obtain ⟨key, v⟩ := entry
      obtain ⟨hfresh, hrest⟩ := List.nodup_cons.mp hnodup
      obtain ⟨w, hmerge, -, -⟩ := mergeEntries_cons h
      have hkeys : Mapping.keys ((key, v) :: rest) = key :: Mapping.keys rest := rfl
      rw [ih hrest hmerge, hkeys]
      by_cases hkey : key ∈ dest.keys
      · rw [Mapping.keys_insert_of_mem hkey, List.filter_cons_of_neg (by simpa using hkey)]
      · -- no later entry has the key, so that it is there now makes no difference to them
        have hothers : ∀ name ∈ Mapping.keys rest,
            decide (name ∉ dest.keys ++ [key]) = decide (name ∉ dest.keys) := by
          intro name hname
          have hne : name ≠ key := fun heq => hfresh (heq ▸ hname)
          simp [hne]
        rw [Mapping.keys_insert_of_not_mem hkey, List.filter_congr hothers,
          List.filter_cons_of_pos (by simpa using hkey), List.append_assoc]
        rfl

end Entries

/-! ## Along a path -/

section Paths

variable {strategy : MergeStrategy} {here : Path} {source dest out : Mapping}

/-- **A scalar or a sequence of the source** is what the result holds, joined to what was
there. -/
theorem at?_mergeEntries (hwf : (Value.map source).WellFormed)
    (h : mergeEntries strategy here source dest = .done out) {name : String}
    {names : List String} {v : Value}
    (hv : (Value.map source).at? (Path.ofKeys (name :: names)) = some v)
    (hscalar : ∀ entries, v ≠ .map entries) :
    (Value.map out).at? (Path.ofKeys (name :: names)) =
      some (((Value.map dest).at? (Path.ofKeys (name :: names))).elim v (v.joined strategy)) := by
  induction names generalizing name here source dest out with
  | nil =>
      obtain ⟨-, hadded, hjoined⟩ := lookup_mergeEntries (Value.wellFormed_map.mp hwf).1 h name
      rw [Value.at?_ofKeys_cons] at hv ⊢
      rw [Value.at?_ofKeys_cons]
      obtain ⟨child, hchild, hbelow⟩ := Option.bind_eq_some_iff.mp hv
      obtain rfl : child = v := Option.some.inj hbelow
      cases hold : dest.lookup name with
      | none =>
          rw [hadded child hchild hold]
          rfl
      | some old =>
          obtain ⟨merged, hmerged, hout⟩ := hjoined child old hchild hold
          rw [mergeValue_of_not_map hscalar] at hmerged
          obtain rfl : child.joined strategy old = merged := congrArg Edited.result hmerged
          rw [hout]
          rfl
  | cons next names ih =>
      obtain ⟨-, hadded, hjoined⟩ := lookup_mergeEntries (Value.wellFormed_map.mp hwf).1 h name
      rw [Value.at?_ofKeys_cons] at hv ⊢
      rw [Value.at?_ofKeys_cons]
      obtain ⟨child, hchild, hbelow⟩ := Option.bind_eq_some_iff.mp hv
      obtain ⟨entries, rfl⟩ := Value.eq_map_of_at?_ofKeys hbelow
      have hwf' : (Value.map entries).WellFormed :=
        (Value.wellFormed_map.mp hwf).2 _ (Mapping.mem_of_lookup hchild)
      cases hold : dest.lookup name with
      | none =>
          rw [hadded _ hchild hold]
          exact hbelow
      | some old =>
          obtain ⟨merged, hmerged, hout⟩ := hjoined _ old hchild hold
          rw [hout]
          rcases mergeValue_map hmerged with ⟨entries', out', rfl, hmerge, rfl⟩ | ⟨rfl, rfl⟩
          · exact ih hwf' hmerge hbelow
          · -- a null has given way to the whole mapping of the source
            exact hbelow

/-- **Where the source has nothing to say**, the result holds what was there. -/
theorem at?_mergeEntries_of_spares (hwf : (Value.map source).WellFormed)
    (h : mergeEntries strategy here source dest = .done out) {name : String}
    {names : List String} (hspares : (Value.map source).Spares (Path.ofKeys (name :: names)))
    {w : Value} (hw : (Value.map dest).at? (Path.ofKeys (name :: names)) = some w) :
    (Value.map out).at? (Path.ofKeys (name :: names)) = some w := by
  induction names generalizing name here source dest out with
  | nil =>
      obtain ⟨hkept, -, -⟩ := lookup_mergeEntries (Value.wellFormed_map.mp hwf).1 h name
      have hnone : source.lookup name = none := by
        have hend := hspares.1
        rw [Value.at?_ofKeys_cons] at hend
        cases hchild : source.lookup name with
        | none => rfl
        | some child => simp [hchild, Path.ofKeys, Value.at?] at hend
      rw [Value.at?_ofKeys_cons] at hw ⊢
      rw [hkept hnone]
      exact hw
  | cons next names ih =>
      obtain ⟨hkept, -, hjoined⟩ := lookup_mergeEntries (Value.wellFormed_map.mp hwf).1 h name
      rw [Value.at?_ofKeys_cons] at hw ⊢
      obtain ⟨old, hold, hbelow⟩ := Option.bind_eq_some_iff.mp hw
      obtain ⟨entries, rfl⟩ := Value.eq_map_of_at?_ofKeys hbelow
      cases hchild : source.lookup name with
      | none =>
          rw [hkept hchild, hold]
          exact hbelow
      | some child =>
          obtain ⟨entries', rfl, hspares'⟩ := hspares.child hchild
          obtain ⟨merged, hmerged, hout⟩ := hjoined _ _ hchild hold
          obtain ⟨out', hmerge, rfl⟩ := mergeValue_map_map hmerged
          have hwf' : (Value.map entries').WellFormed :=
            (Value.wellFormed_map.mp hwf).2 _ (Mapping.mem_of_lookup hchild)
          rw [hout]
          exact ih hwf' hmerge hspares' hbelow

end Paths

/-! ## What a merge keeps -/

/-- A property of values that comes down to keys and scalars: a sequence has it if its items
have it, a mapping hands it down to its values and asks `Q` of its keys, and it may be
written into a mapping. -/
structure Value.Hereditary (P : Value → Prop) (Q : String → Prop) : Prop where
  items : ∀ {items : List Value}, P (.seq items) ↔ ∀ v ∈ items, P v
  entries : ∀ {m : Mapping}, P (.map m) → ∀ entry ∈ m, Q entry.1 ∧ P entry.2
  insert : ∀ {m : Mapping} {name : String} {v : Value}, P (.map m) → Q name → P v →
    P (.map (m.insert name v))

section Hereditary

variable {P : Value → Prop} {Q : String → Prop} (hP : Value.Hereditary P Q)
  {strategy : MergeStrategy}

include hP

theorem Value.Hereditary.joined {v old : Value} (hv : P v) (hold : P old) :
    P (v.joined strategy old) := by
  cases v with
  | seq items =>
      cases strategy with
      | replace => exact hv
      | append =>
          cases old with
          | seq existing =>
              refine hP.items.mpr fun w hw => ?_
              rcases List.mem_append.mp hw with hw | hw
              · exact hP.items.mp hold w hw
              · exact hP.items.mp hv w hw
          | _ => exact hold
  | _ => exact hv

/-- What is left of a mapping when values are merged into it that keep the property. -/
theorem Value.Hereditary.mergeEntries_of {source : Mapping}
    (hsource : ∀ entry ∈ source, Q entry.1 ∧ P entry.2)
    (hmerge : ∀ entry ∈ source, ∀ here old, P old →
      P (mergeValue strategy here entry.2 old).result)
    (here : Path) {dest : Mapping} (hdest : P (.map dest)) :
    P (.map (mergeEntries strategy here source dest).result) := by
  induction source generalizing dest with
  | nil => exact hdest
  | cons entry rest ih =>
      obtain ⟨name, v⟩ := entry
      obtain ⟨hname, hv⟩ := hsource _ List.mem_cons_self
      have hrest : ∀ {dest : Mapping}, P (.map dest) →
          P (.map (mergeEntries strategy here rest dest).result) :=
        ih (fun e he => hsource e (List.mem_cons_of_mem _ he))
          (fun e he => hmerge e (List.mem_cons_of_mem _ he))
      rw [mergeEntries]
      cases hold : dest.lookup name with
      | none => exact hrest (hP.insert hdest hname hv)
      | some old =>
          have hold' : P old := (hP.entries hdest _ (Mapping.mem_of_lookup hold)).2
          have hinsert : P (.map (dest.insert name _)) := hP.insert hdest hname
            (hmerge _ List.mem_cons_self (here ++ [.key name]) old hold')
          simp only [Edited.andThen, Edited.failure_map, Edited.result_map]
          cases (mergeValue strategy (here ++ [.key name]) v old).failure with
          | some e => exact hinsert
          | none => exact hrest hinsert

/-- Merging two values keeps the property. -/
theorem Value.Hereditary.mergeValue {v : Value} (hv : P v) (here : Path) {old : Value}
    (hold : P old) : P (mergeValue strategy here v old).result := by
  induction v using Value.map_induction generalizing here old with
  | leaf v hleaf =>
      rw [mergeValue_of_not_map hleaf]
      exact hP.joined hv hold
  | map source ih =>
      have hsource := hP.entries hv
      cases old with
      | map entries =>
          exact hP.mergeEntries_of hsource
            (fun entry hentry here old hold => ih entry hentry (hsource entry hentry).2 here hold)
            here hold
      | null => exact hv
      | _ => exact hold

/-- **A merge keeps what is hereditary**, also if it stops. -/
theorem Value.Hereditary.merge {source dest : Mapping} (hsource : P (.map source))
    (hdest : P (.map dest)) : P (.map (source.merge strategy dest).result) :=
  hP.mergeEntries_of (hP.entries hsource)
    (fun entry hentry here _ hold =>
      hP.mergeValue (hP.entries hsource entry hentry).2 here hold) [] hdest

end Hereditary

/-- Well-formedness is hereditary. -/
theorem Value.wellFormed_hereditary : Value.Hereditary Value.WellFormed fun _ => True where
  items := wellFormed_seq
  entries := fun hm entry hentry => ⟨trivial, (wellFormed_map.mp hm).2 entry hentry⟩
  insert := fun hm _ hv => Mapping.wellFormed_insert hm hv

namespace Mapping

variable {strategy : MergeStrategy} {source dest out : Mapping}

/-- **A merge of well-formed trees is well formed**, also one that stops. -/
theorem wellFormed_merge (hsource : (Value.map source).WellFormed)
    (hdest : (Value.map dest).WellFormed) :
    (Value.map (source.merge strategy dest).result).WellFormed :=
  Value.wellFormed_hereditary.merge hsource hdest

/-- **What the source holds at a path of keys**, unless it is a mapping, is what the result
holds there, joined to what was there. -/
theorem get?_merge (hwf : (Value.map source).WellFormed)
    (h : source.merge strategy dest = .done out) {names : List String} {v : Value}
    (hv : source.get? (Path.ofKeys names) = some v) (hscalar : ∀ entries, v ≠ .map entries) :
    out.get? (Path.ofKeys names) =
      some ((dest.get? (Path.ofKeys names)).elim v (v.joined strategy)) := by
  obtain ⟨name, rest, rfl⟩ := ofKeys_ne_nil hv
  rw [get?_ofKeys_cons] at hv ⊢
  rw [get?_ofKeys_cons]
  exact at?_mergeEntries hwf h hv hscalar

/-- **What a source spares stays.** -/
theorem get?_merge_of_spares (hwf : (Value.map source).WellFormed)
    (h : source.merge strategy dest = .done out) {names : List String}
    (hspares : (Value.map source).Spares (Path.ofKeys names)) {w : Value}
    (hw : dest.get? (Path.ofKeys names) = some w) :
    out.get? (Path.ofKeys names) = some w := by
  obtain ⟨name, rest, rfl⟩ := ofKeys_ne_nil hw
  rw [get?_ofKeys_cons] at hw ⊢
  exact at?_mergeEntries_of_spares hwf h hspares hw

end Mapping

end LayeredConfig
