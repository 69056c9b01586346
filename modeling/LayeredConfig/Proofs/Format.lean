import LayeredConfig.Format
import LayeredConfig.Override.Sniff
import LayeredConfig.Proofs.Tree.Entries
import Mathlib.Data.List.Induction

/-!
# What is read is well formed

Both formats put the entries of a mapping in one by one, so that no key is held twice
afterwards, whatever the text repeats.  The trees that they read are well formed all the
way down: JSON by recursion on the nesting that is left (`wellFormed_value?`), YAML by
recursion on the datum (`wellFormed_toValue`).

A format with this property is called tidy.  The main statements are `yaml_tidy` and
`json_tidy`; the raw text of an override gives a well-formed value for the same reason
(`wellFormed_sniff`).
-/

namespace LayeredConfig

/-- Whatever the format reads is well formed. -/
def Format.Tidy (f : Format) : Prop :=
  ∀ text v, f.read? text = some v → v.WellFormed

namespace Json

/-- **Entries put in one by one** make a well-formed mapping. -/
theorem wellFormed_mappingOf {entries : Mapping} (h : ∀ entry ∈ entries, entry.2.WellFormed) :
    (Value.map (mappingOf entries)).WellFormed := by
  have hfold : ∀ (rest m : Mapping), (∀ entry ∈ rest, entry.2.WellFormed) →
      (Value.map m).WellFormed →
      (Value.map (rest.foldl (fun m entry => Mapping.insert m entry.1 entry.2) m)).WellFormed := by
    intro rest
    induction rest with
    | nil => exact fun m _ hm => hm
    | cons entry rest ih =>
        intro m hrest hm
        have hinsert : (Value.map (m.insert entry.1 entry.2)).WellFormed :=
          Mapping.wellFormed_insert hm (hrest entry List.mem_cons_self)
        exact ih _ (fun e he => hrest e (List.mem_cons_of_mem _ he)) hinsert
  exact hfold entries [] h (Value.wellFormed_map.mpr ⟨List.nodup_nil, List.forall_mem_nil _⟩)

/-- An entry that is put in behind others. -/
theorem mappingOf_append_singleton (entries : Mapping) (entry : String × Value) :
    mappingOf (entries ++ [entry]) = (mappingOf entries).insert entry.1 entry.2 := by
  rw [mappingOf, List.foldl_append]
  rfl

/-- A key stands where it was put in first. -/
theorem keys_mappingOf (entries : Mapping) :
    (mappingOf entries).keys = entries.keys.eraseDups := by
  induction entries using List.reverseRecOn with
  | nil => rfl
  | append_singleton entries entry ih =>
      have hkeys : Mapping.keys (entries ++ [entry]) = Mapping.keys entries ++ [entry.1] :=
        List.map_append
      rw [mappingOf_append_singleton, hkeys, List.eraseDups_append, ← ih]
      by_cases hmem : entry.1 ∈ (mappingOf entries).keys
      · have hold : entry.1 ∈ Mapping.keys entries := List.mem_eraseDups.mp (ih ▸ hmem)
        rw [Mapping.keys_insert_of_mem hmem]
        simp [List.removeAll, hold]
      · have hnew : entry.1 ∉ Mapping.keys entries := fun h => hmem (ih ▸ List.mem_eraseDups.mpr h)
        rw [Mapping.keys_insert_of_not_mem hmem]
        simp [List.removeAll, hnew, List.eraseDups_cons]

/-- A key holds what was put in last. -/
theorem lookup_mappingOf (entries : Mapping) (name : String) :
    (mappingOf entries).lookup name = entries.reverse.lookup name := by
  induction entries using List.reverseRecOn with
  | nil => rfl
  | append_singleton entries entry ih =>
      obtain ⟨key, v⟩ := entry
      rw [mappingOf_append_singleton, List.reverse_append, List.reverse_singleton,
        List.singleton_append, List.lookup_cons]
      by_cases hname : name = key
      · subst hname
        rw [Mapping.lookup_insert_self, beq_self_eq_true]
      · rw [Mapping.lookup_insert_of_ne hname, beq_false_of_ne hname, ih]

section Parts

variable {α : Type} {part : List Char → Option (α × List Char)} {closing : Char} {P : α → Prop}

/-- What holds of every part that is read holds of all parts. -/
theorem forall_of_parts (hpart : ∀ cs a rest, part cs = some (a, rest) → P a) {bound : Nat}
    {cs rest : List Char} {as : List α} (h : parts part closing bound cs = some (as, rest)) :
    ∀ a ∈ as, P a := by
  induction bound generalizing cs as with
  | zero => contradiction
  | succ bound ih =>
      rw [parts] at h
      obtain ⟨⟨a, behind⟩, hfirst, h⟩ := Option.bind_eq_some_iff.mp h
      have ha : P a := hpart cs a behind hfirst
      dsimp only at h
      split at h
      · next c after _ =>
          split at h
          · obtain ⟨⟨more, last⟩, hmore, h⟩ := Option.bind_eq_some_iff.mp h
            obtain ⟨rfl, rfl⟩ := Prod.mk.inj (Option.some.inj h)
            exact List.forall_mem_cons.mpr ⟨ha, ih hmore⟩
          · split at h
            · obtain ⟨rfl, -⟩ := Prod.mk.inj (Option.some.inj h)
              exact List.forall_mem_singleton.mpr ha
            · contradiction
      · contradiction

/-- So it is for the parts of a container. -/
theorem forall_of_container (hpart : ∀ cs a rest, part cs = some (a, rest) → P a)
    {cs rest : List Char} {as : List α} (h : container part closing cs = some (as, rest)) :
    ∀ a ∈ as, P a := by
  rw [container] at h
  split at h
  · split at h
    · obtain ⟨rfl, -⟩ := Prod.mk.inj (Option.some.inj h)
      exact nofun
    · exact forall_of_parts hpart h
  · contradiction

end Parts

/-- The value of an entry is what the reader of values read. -/
theorem value_of_entry {α : Type} {value : String → List Char → Option (α × List Char)}
    {cs rest : List Char} {e : String × α} (h : entry value cs = some (e, rest)) :
    ∃ behind, value e.1 behind = some (e.2, rest) := by
  rw [entry] at h
  split at h
  · obtain ⟨⟨key, behind⟩, -, h⟩ := Option.bind_eq_some_iff.mp h
    dsimp only at h
    split at h
    · next after _ =>
        obtain ⟨⟨v, last⟩, hvalue, h⟩ := Option.bind_eq_some_iff.mp h
        obtain ⟨rfl, rfl⟩ := Prod.mk.inj (Option.some.inj h)
        exact ⟨after, hvalue⟩
    · contradiction
  · contradiction

theorem wellFormed_scalar {cs rest : List Char} {v : Value} (h : scalar cs = some (v, rest)) :
    v.WellFormed := by
  unfold scalar at h
  split at h
  · obtain ⟨rfl, -⟩ := Prod.mk.inj (Option.some.inj h)
    trivial
  · obtain ⟨rfl, -⟩ := Prod.mk.inj (Option.some.inj h)
    trivial
  · obtain ⟨rfl, -⟩ := Prod.mk.inj (Option.some.inj h)
    trivial
  · obtain ⟨⟨text, behind⟩, -, h⟩ := Option.map_eq_some_iff.mp h
    obtain ⟨rfl, -⟩ := Prod.mk.inj h
    trivial
  · obtain ⟨⟨n, behind⟩, -, h⟩ := Option.bind_eq_some_iff.mp h
    obtain ⟨w, hw, h⟩ := Option.bind_eq_some_iff.mp h
    obtain ⟨rfl, -⟩ := Prod.mk.inj (Option.some.inj h)
    rw [Numeral.value?] at hw
    split at hw
    · exact Option.some.inj hw ▸ trivial
    · obtain ⟨x, -, rfl⟩ := Option.map_eq_some_iff.mp hw
      trivial

/-- **A JSON value is well formed**, also if a mapping in the text repeats a key. -/
theorem wellFormed_value? {n : Nat} {cs rest : List Char} {v : Value}
    (h : value? n cs = some (v, rest)) : v.WellFormed := by
  induction n generalizing cs rest v with
  | zero =>
      rw [value?.eq_def] at h
      dsimp only at h
      split at h
      · contradiction
      · contradiction
      · exact wellFormed_scalar h
  | succ n ih =>
      rw [value?.eq_def] at h
      dsimp only at h
      split at h
      · obtain ⟨⟨items, behind⟩, hitems, h⟩ := Option.map_eq_some_iff.mp h
        obtain ⟨rfl, -⟩ := Prod.mk.inj h
        exact Value.wellFormed_seq.mpr (forall_of_container (fun _ _ _ => ih) hitems)
      · obtain ⟨⟨entries, behind⟩, hentries, h⟩ := Option.map_eq_some_iff.mp h
        obtain ⟨rfl, -⟩ := Prod.mk.inj h
        have hvalue : ∀ cs (e : String × Value) rest,
            entry (fun _ => value? n) cs = some (e, rest) → e.2.WellFormed := by
          intro cs e rest he
          obtain ⟨behind, hread⟩ := value_of_entry he
          exact ih hread
        exact wellFormed_mappingOf (forall_of_container hvalue hentries)
      · exact wellFormed_scalar h

theorem wellFormed_read? {text : String} {v : Value} (h : read? text = some v) :
    v.WellFormed := by
  obtain ⟨⟨w, rest⟩, hvalue, h⟩ := Option.bind_eq_some_iff.mp h
  dsimp only at h
  split at h
  · obtain rfl := Option.some.inj h
    exact wellFormed_value? hvalue
  · contradiction

end Json

namespace Yaml

mutual

/-- **The tree value of a datum is well formed.** -/
theorem Datum.wellFormed_toValue (d : Datum) : d.toValue.WellFormed := by
  cases d with
  | null => trivial
  | bool b => trivial
  | int i =>
      rw [toValue]
      split <;> trivial
  | float x => trivial
  | str text => trivial
  | seq items => exact Value.wellFormed_seq.mpr (wellFormed_itemValues items)
  | map entries => exact Json.wellFormed_mappingOf (wellFormed_entryValues entries)
  | tagged tag d => exact wellFormed_toValue d

theorem Datum.wellFormed_itemValues (items : List Datum) :
    ∀ v ∈ itemValues items, v.WellFormed := by
  cases items with
  | nil => exact nofun
  | cons d rest =>
      exact List.forall_mem_cons.mpr ⟨wellFormed_toValue d, wellFormed_itemValues rest⟩

theorem Datum.wellFormed_entryValues (entries : List (Datum × Datum)) :
    ∀ entry ∈ entryValues entries, entry.2.WellFormed := by
  cases entries with
  | nil => exact nofun
  | cons entry rest =>
      exact List.forall_mem_cons.mpr ⟨wellFormed_toValue entry.2, wellFormed_entryValues rest⟩

end

theorem wellFormed_read? {text : String} {v : Value} (h : read? text = some v) :
    v.WellFormed := by
  obtain ⟨document, -, h⟩ := Option.bind_eq_some_iff.mp h
  dsimp only at h
  split at h
  · obtain rfl := Option.some.inj h
    trivial
  · obtain ⟨⟨d, followed⟩, -, h⟩ := Option.bind_eq_some_iff.mp h
    obtain rfl := Option.some.inj h
    exact d.wellFormed_toValue

end Yaml

namespace Format

theorem yaml_tidy : yaml.Tidy :=
  fun _ _ => Yaml.wellFormed_read?

theorem json_tidy : json.Tidy :=
  fun _ _ => Json.wellFormed_read?

/-- The tree of a document in a tidy format is well formed. -/
theorem Tidy.readMapping {f : Format} (hf : f.Tidy) {text : String} {tree : Mapping}
    (h : f.readMapping text = .ok tree) : (Value.map tree).WellFormed := by
  have hempty : (Value.map []).WellFormed := Value.wellFormed_map.mpr ⟨List.nodup_nil, nofun⟩
  rw [Format.readMapping] at h
  split at h
  · exact Except.ok.inj h ▸ hempty
  · rw [Format.read] at h
    cases hread : f.read? text with
    | none =>
        rw [hread] at h
        contradiction
    | some v =>
        rw [hread] at h
        cases v with
        | map entries => exact Except.ok.inj h ▸ hf text _ hread
        | null => exact Except.ok.inj h ▸ hempty
        | _ => contradiction

end Format

namespace Override

/-- The value of a raw text is well formed. -/
theorem wellFormed_sniff (raw : String) : (sniff raw).WellFormed := by
  have hcontainer : ∀ v, container? raw = some v → v.WellFormed := by
    intro v hv
    rw [container?] at hv
    split at hv
    · exact Json.wellFormed_read? hv
    · exact Json.wellFormed_read? hv
    · contradiction
  rw [sniff]
  split
  · trivial
  · split
    · trivial
    · split
      · trivial
      · split
        · trivial
        · cases hraw : container? raw with
          | none => trivial
          | some v => exact hcontainer v hraw

end Override

end LayeredConfig
