import LayeredConfig.Proofs.Format
import LayeredConfig.Proofs.Tree.Edits
import LayeredConfig.Proofs.Tree.Merge
import LayeredConfig.Override.Overrides
import Mathlib.Data.List.TakeWhile

/-!
# Where overrides are filed

Overrides are kept twice, under their paths as written and as a tree.  The two agree as long
as no path leads on from another one: what stands under a path as written stands at that
path in the tree (`Filed`).  Otherwise the later of two overrides may bury the earlier one,
and that is the only way in which they can come apart.

Tokens are filed when they are read (`filed_of_parse`).  The check of the overrides files
the coerced ones again, under paths that are there already, so that afterwards each path
has its coerced value and the others have what they had (`Filed.validate`).  Merged into a
page, what is filed takes the place of what the page holds (`Filed.get?_apply`).

Whatever is filed or coerced, the tree of the overrides stays well formed.
-/

namespace LayeredConfig

namespace Override

/-- The path of a token holds no bracket. -/
theorem Token.bracket_not_mem_path {text : String} {token : Token}
    (h : Token.read? text = some token) : '[' ∉ token.path.toList := by
  rw [Token.read?] at h
  dsimp only at h
  split at h
  · next c path raw hpath _ =>
      obtain rfl := Option.some.inj h
      have hchars : ∀ d ∈ c :: path, isPathChar d = true := by
        rw [← hpath]
        exact fun d => List.mem_takeWhile_imp
      rw [String.toList_ofList]
      exact fun hmem => absurd (hchars '[' hmem) (by decide)
  · contradiction

/-- A coerced value is a sequence of texts. -/
theorem wellFormed_of_coerced {running page : Mapping} {path : String} {value v : Value}
    (h : (verdict running page path value).coerced? = some v) : v.WellFormed := by
  rw [verdict] at h
  split at h
  · contradiction
  · split at h
    · contradiction
    · split at h
      · next existing hcoerce =>
          obtain rfl := Option.some.inj h
          rw [coerce?.eq_def] at hcoerce
          split at hcoerce
          · obtain ⟨inner, -, rfl⟩ := Option.map_eq_some_iff.mp hcoerce
            refine Value.wellFormed_seq.mpr fun w hw => ?_
            obtain ⟨part, -, rfl⟩ := List.mem_map.mp hw
            trivial
          · contradiction
      · contradiction

end Override

namespace Overrides

/-- The paths are read as paths of which none leads on from another. -/
def Apart (paths : List String) : Prop :=
  ∀ path ∈ paths, ∀ other ∈ paths, path ≠ other →
    ∀ p q, Path.read? path = some p → Path.read? other = some q → ¬ p <+: q

/-- Whether paths part can be decided. -/
instance (paths : List String) : Decidable (Apart paths) :=
  decidable_of_iff
    (∀ path ∈ paths, ∀ other ∈ paths, path ≠ other →
      ∀ p ∈ Path.read? path, ∀ q ∈ Path.read? other, ¬ p <+: q) <| by
    constructor
    · intro h path hpath other hother hne p q hp hq
      exact h path hpath other hother hne p hp q hq
    · intro h path hpath other hother hne p hp q hq
      exact h path hpath other hother hne p q hp hq

/-- What is kept under a path as written stands at the path in the tree. -/
structure Filed (o : Overrides) : Prop where
  nested : (Value.map o.nested).WellFormed
  flat : o.flat.keys.Nodup
  /-- Every path as written is a path of keys. -/
  paths : ∀ path ∈ o.flat.keys, ∃ name names,
    Path.read? path = some (Path.ofKeys (name :: names))
  stands : Apart o.flat.keys → ∀ entry ∈ o.flat, ∀ p, Path.read? entry.1 = some p →
    o.nested.get? p = some entry.2

theorem filed_empty : empty.Filed where
  nested := Value.wellFormed_map.mpr ⟨List.nodup_nil, nofun⟩
  flat := List.nodup_nil
  paths := nofun
  stands := nofun

theorem Apart.mono {paths others : List String} (h : Apart others) (hsub : paths ⊆ others) :
    Apart paths :=
  fun path hpath other hother => h path (hsub hpath) other (hsub hother)

variable {o : Overrides}

/-- **What becomes of an override that is added**: it is at no path, or it cannot be written
there, or it is written into the tree and then under its path. -/
theorem put_cases (o : Overrides) (path : String) (value : Value) :
    (Path.read? path = none ∧ o.put path value = .stop o (.unreadablePath path)) ∨
    ∃ p, Path.read? path = some p ∧
      ((∃ fault, (o.nested.set p value).failure = some fault ∧
          o.put path value =
            .stop { o with nested := (o.nested.set p value).result } (.unwritable fault)) ∨
        ((o.nested.set p value).failure = none ∧
          o.put path value =
            .done { o with
              nested := (o.nested.set p value).result, flat := o.flat.insert path value })) := by
  rw [put]
  cases hread : Path.read? path with
  | none => exact Or.inl ⟨rfl, rfl⟩
  | some p =>
      refine Or.inr ⟨p, rfl, ?_⟩
      dsimp only
      cases hset : (o.nested.set p value).failure with
      | some fault => exact Or.inl ⟨fault, rfl, rfl⟩
      | none => exact Or.inr ⟨rfl, rfl⟩

/-- An override that is added stands in the tree and under its path, which is not the root. -/
theorem put_eq_done {path : String} {value : Value} {o' : Overrides}
    (h : o.put path value = .done o') :
    ∃ p, Path.read? path = some p ∧ p ≠ [] ∧ (o.nested.set p value).failure = none ∧
      o' = { o with
        nested := (o.nested.set p value).result, flat := o.flat.insert path value } := by
  obtain ⟨-, hput⟩ | ⟨p, hp, ⟨fault, -, hput⟩ | ⟨hdone, hput⟩⟩ := put_cases o path value
  · rw [hput] at h
    cases h
  · rw [hput] at h
    cases h
  · rw [hput] at h
    refine ⟨p, hp, ?_, hdone, (Edited.done_inj h).symm⟩
    rintro rfl
    exact Option.some_ne_none _ hdone

/-- **One more override is filed**, at any path of keys. -/
theorem Filed.put (ho : o.Filed) {path : String} {name : String} {names : List String}
    (hpath : Path.read? path = some (Path.ofKeys (name :: names))) {value : Value}
    (hvalue : value.WellFormed) :
    ∃ o', o.put path value = .done o' ∧ o'.Filed ∧ o'.flat = o.flat.insert path value := by
  obtain ⟨nested, hset, hself, hframe⟩ := Mapping.set_ofKeys o.nested name names value
  have hwf : (Value.map nested).WellFormed := by
    have hresult := Mapping.wellFormed_set ho.nested hvalue (Path.ofKeys (name :: names))
    rwa [hset] at hresult
  have hput : o.put path value =
      .done { o with nested, flat := o.flat.insert path value } := by
    simp only [Overrides.put, hpath, hset, Edited.failure_done, Edited.result_done]
  have hmem : path ∈ Mapping.keys (o.flat.insert path value) :=
    Mapping.mem_keys_insert.mpr (Or.inl rfl)
  have hsub : o.flat.keys ⊆ Mapping.keys (o.flat.insert path value) :=
    fun other hother => Mapping.mem_keys_insert.mpr (Or.inr hother)
  refine ⟨_, hput, ⟨hwf, Mapping.nodup_keys_insert ho.flat, fun other hother => ?_, ?_⟩, rfl⟩
  · rcases Mapping.mem_keys_insert.mp hother with rfl | hold
    · exact ⟨name, names, hpath⟩
    · exact ho.paths other hold
  · intro hapart entry hentry p hp
    have hlookup : List.lookup entry.1 (o.flat.insert path value) = some entry.2 :=
      Mapping.lookup_of_mem (Mapping.nodup_keys_insert ho.flat) hentry
    by_cases hname : entry.1 = path
    · rw [hname, Mapping.lookup_insert_self] at hlookup
      rw [hname, hpath] at hp
      rw [← Option.some.inj hp, hself, hlookup]
    · -- the two paths part somewhere, so the write does not reach the older override
      rw [Mapping.lookup_insert_of_ne hname] at hlookup
      have hold : entry ∈ o.flat := Mapping.mem_of_lookup hlookup
      have hstands := ho.stands (hapart.mono hsub) entry hold p hp
      obtain ⟨other, others, hother⟩ := ho.paths entry.1 (List.mem_map_of_mem hold)
      obtain rfl : Path.ofKeys (other :: others) = p := Option.some.inj (hother.symm.trans hp)
      have hmem' : entry.1 ∈ Mapping.keys (o.flat.insert path value) :=
        List.mem_map_of_mem hentry
      have hnot := hapart path hmem entry.1 hmem' (Ne.symm hname) _ _ hpath hother
      have hnot' := hapart entry.1 hmem' path hmem hname _ _ hother hpath
      rw [hframe (other :: others) (fun h => hnot (h.map _)) fun h => hnot' (h.map _)]
      exact hstands

/-- A token that is read is filed. -/
theorem Filed.addToken (ho : o.Filed) {token : String} {o' : Overrides}
    (h : o.addToken token = .ok o') : o'.Filed := by
  simp only [Overrides.addToken] at h
  split at h
  · exact Except.ok.inj h ▸ ho
  · split at h
    · cases h
    · cases h
    · next path raw hread =>
        have hbracket : '[' ∉ path.toList := Override.Token.bracket_not_mem_path hread
        obtain ⟨filed, hput, h⟩ := bind_ok h
        have hdone := Edited.toExcept_eq_ok hput
        obtain ⟨p, hp, hne, -, -⟩ := put_eq_done hdone
        obtain ⟨names, rfl⟩ := Path.exists_ofKeys_of_read? hbracket hp
        have hfiled : filed.Filed := by
          cases names with
          | nil => exact absurd rfl hne
          | cons name names =>
              obtain ⟨o', ho', hfiled, -⟩ := ho.put hp (Override.wellFormed_sniff raw)
              have hsame : o' = filed := congrArg Edited.result (ho'.symm.trans hdone)
              exact hsame ▸ hfiled
        obtain rfl := Except.ok.inj h
        exact ⟨hfiled.nested, hfiled.flat, hfiled.paths, hfiled.stands⟩

/-- **Tokens are filed.** -/
theorem filed_of_parse {tokens : List String} (h : parse tokens = .ok o) : o.Filed :=
  foldlM_ok (fun _ _ _ ho => ho.addToken) filed_empty h

/-- Overrides are filed again, under paths that are there. -/
theorem Filed.foldl_put (ho : o.Filed) {edits : Mapping} (hnodup : edits.keys.Nodup)
    (hedits : ∀ edit ∈ edits, edit.1 ∈ o.flat.keys ∧ edit.2.WellFormed) :
    ∃ o', Edited.foldl (fun o edit => o.put edit.1 edit.2) o edits = .done o' ∧ o'.Filed ∧
      o'.flat.keys = o.flat.keys ∧
      ∀ path, o'.flat.lookup path = (edits.lookup path <|> o.flat.lookup path) := by
  induction edits generalizing o with
  | nil => exact ⟨o, rfl, ho, rfl, fun _ => rfl⟩
  | cons edit edits ih =>
      obtain ⟨hfresh, hrest⟩ := List.nodup_cons.mp hnodup
      obtain ⟨hmem, hwf⟩ := hedits edit List.mem_cons_self
      obtain ⟨name, names, hpath⟩ := ho.paths edit.1 hmem
      obtain ⟨next, hput, hfiled, hflat⟩ := ho.put hpath hwf
      have hkeys : next.flat.keys = o.flat.keys := by rw [hflat, Mapping.keys_insert_of_mem hmem]
      obtain ⟨o', hfold, hfiled', hkeys', hlookup⟩ := ih hfiled hrest fun e he =>
        ⟨hkeys ▸ (hedits e (List.mem_cons_of_mem _ he)).1, (hedits e (List.mem_cons_of_mem _ he)).2⟩
      refine ⟨o', ?_, hfiled', hkeys'.trans hkeys, fun path => ?_⟩
      · rw [Edited.foldl, hput, Edited.done_andThen, hfold]
      · rw [hlookup, hflat]
        by_cases hname : path = edit.1
        · subst hname
          rw [Mapping.lookup_of_not_mem_keys hfresh, Mapping.lookup_insert_self,
            List.lookup_cons_self]
          rfl
        · rw [Mapping.lookup_insert_of_ne hname, List.lookup_cons, beq_false_of_ne hname]

/-! ## The check -/

section Check

variable {running page : Mapping}

/-- The value that the check of an override leaves. -/
def settled (running page : Mapping) (entry : String × Value) : Value :=
  (Override.verdict running page entry.1 entry.2).coerced?.getD entry.2

/-- The overrides that the check coerces, with their new values. -/
def coercions (o : Overrides) (running page : Mapping) : Mapping :=
  o.flat.filterMap fun entry =>
    (Override.verdict running page entry.1 entry.2).coerced?.map (entry.1, ·)

/-- The rejections of the check. -/
def rejections (o : Overrides) (running page : Mapping) : List OverrideFailure :=
  o.flat.filterMap fun entry => (Override.verdict running page entry.1 entry.2).failure?

theorem validate_eq (o : Overrides) (running page : Mapping) :
    o.validate running page =
      (Edited.foldl (fun o edit => o.put edit.1 edit.2) o (o.coercions running page)).andThen
        fun o' => if (o.rejections running page).isEmpty then .done o'
          else .stop o' (.overrideChecks (o.rejections running page)) := by
  rw [validate, coercions, rejections]
  simp only [List.filterMap_map]
  rfl

/-- An override that is coerced is one of the coercions. -/
theorem mem_coercions {edit : String × Value} :
    edit ∈ o.coercions running page ↔ ∃ entry ∈ o.flat, entry.1 = edit.1 ∧
      (Override.verdict running page entry.1 entry.2).coerced? = some edit.2 := by
  rw [coercions, List.mem_filterMap]
  constructor
  · rintro ⟨entry, hentry, h⟩
    obtain ⟨v, hv, rfl⟩ := Option.map_eq_some_iff.mp h
    exact ⟨entry, hentry, rfl, hv⟩
  · rintro ⟨entry, hentry, hpath, hv⟩
    exact ⟨entry, hentry, by rw [hv, Option.map_some, hpath]⟩

theorem wellFormed_of_mem_coercions {edit : String × Value}
    (h : edit ∈ o.coercions running page) : edit.2.WellFormed := by
  obtain ⟨entry, -, -, hv⟩ := mem_coercions.mp h
  exact Override.wellFormed_of_coerced hv

theorem nodup_keys_coercions (h : o.flat.keys.Nodup) :
    (o.coercions running page).keys.Nodup := by
  have hapart : o.flat.Pairwise fun entry other => entry.1 ≠ other.1 := List.pairwise_map.mp h
  refine List.pairwise_map.mpr (hapart.filterMap _ ?_)
  intro entry other hne edit hedit edit' hedit'
  obtain ⟨v, -, rfl⟩ := Option.map_eq_some_iff.mp hedit
  obtain ⟨v', -, rfl⟩ := Option.map_eq_some_iff.mp hedit'
  exact hne

/-- The coercions hold under the path of an override what it is coerced to. -/
theorem lookup_coercions (hnodup : o.flat.keys.Nodup) {entry : String × Value}
    (hentry : entry ∈ o.flat) :
    (o.coercions running page).lookup entry.1 =
      (Override.verdict running page entry.1 entry.2).coerced? := by
  cases hv : (Override.verdict running page entry.1 entry.2).coerced? with
  | some v =>
      exact Mapping.lookup_of_mem (nodup_keys_coercions hnodup)
        (mem_coercions.mpr ⟨entry, hentry, rfl, hv⟩)
  | none =>
      -- a coercion under the same path would be one of this very override
      apply Mapping.lookup_of_not_mem_keys
      intro hmem
      obtain ⟨edit, hedit, hpath⟩ := List.mem_map.mp hmem
      obtain ⟨other, hother, hpath', hv'⟩ := mem_coercions.mp hedit
      have hsame : o.flat.lookup entry.1 = some other.2 := by
        rw [← hpath, ← hpath']
        exact Mapping.lookup_of_mem hnodup hother
      have hvalue : entry.2 = other.2 :=
        Option.some.inj ((Mapping.lookup_of_mem hnodup hentry).symm.trans hsame)
      rw [hpath', hpath, ← hvalue, hv] at hv'
      contradiction

/-- The check leaves the overrides under their paths, in their order. -/
theorem keys_map_settled (running page flat : Mapping) :
    Mapping.keys (flat.map fun entry => (entry.1, settled running page entry)) = flat.keys := by
  rw [Mapping.keys, List.map_map]
  rfl

/-- **The check settles every override**, whatever it makes of the others, and then reports
the rejected ones. -/
theorem Filed.checked (ho : o.Filed) (running page : Mapping) :
    ∃ o', o'.Filed ∧
      o'.flat = o.flat.map (fun entry => (entry.1, settled running page entry)) ∧
      o.validate running page =
        if (o.rejections running page).isEmpty then .done o'
        else .stop o' (.overrideChecks (o.rejections running page)) := by
  have hedits : ∀ edit ∈ o.coercions running page, edit.1 ∈ o.flat.keys ∧ edit.2.WellFormed := by
    intro edit hedit
    refine ⟨?_, wellFormed_of_mem_coercions hedit⟩
    obtain ⟨entry, hentry, hpath, -⟩ := mem_coercions.mp hedit
    exact hpath ▸ List.mem_map_of_mem hentry
  obtain ⟨o', hfold, hfiled, hkeys, hlookup⟩ :=
    ho.foldl_put (nodup_keys_coercions ho.flat) hedits
  refine ⟨o', hfiled, ?_, by rw [validate_eq, hfold, Edited.done_andThen]⟩
  have hkeys' := keys_map_settled running page o.flat
  apply Mapping.eq_of_keys_of_lookup hfiled.flat (hkeys.trans hkeys'.symm)
  intro name hname
  obtain ⟨entry, hentry, rfl⟩ := List.mem_map.mp (hkeys ▸ hname)
  have hsettled : (entry.1, settled running page entry) ∈
      o.flat.map fun entry => (entry.1, settled running page entry) :=
    List.mem_map_of_mem hentry
  rw [hlookup, lookup_coercions ho.flat hentry, Mapping.lookup_of_mem ho.flat hentry,
    Mapping.lookup_of_mem (hkeys'.symm ▸ ho.flat) hsettled, settled]
  cases (Override.verdict running page entry.1 entry.2).coerced? <;> rfl

/-- **After the check** each override has its coerced value, if it was coerced, and none was
rejected. -/
theorem Filed.validate (ho : o.Filed) {o' : Overrides}
    (h : o.validate running page = .done o') :
    o'.Filed ∧ o'.flat = o.flat.map (fun entry => (entry.1, settled running page entry)) ∧
      ∀ entry ∈ o.flat, (Override.verdict running page entry.1 entry.2).failure? = none := by
  obtain ⟨checked, hfiled, hflat, heq⟩ := ho.checked running page
  rw [heq] at h
  split at h
  · next hnone =>
      obtain rfl : checked = o' := congrArg Edited.result h
      exact ⟨hfiled, hflat, List.filterMap_eq_nil_iff.mp (List.isEmpty_iff.mp hnone)⟩
  · cases h

end Check

/-- **In the page an override wins.**  Once the overrides are merged in, the page holds the
override at its path, whatever it held there before. -/
theorem Filed.get?_apply (ho : o.Filed) (hapart : Apart o.flat.keys) {page merged : Mapping}
    (hmerged : o.apply page = .done merged) {entry : String × Value} (hentry : entry ∈ o.flat)
    {p : Path} (hp : Path.read? entry.1 = some p) (hscalar : ∀ entries, entry.2 ≠ .map entries) :
    merged.get? p = some entry.2 := by
  obtain ⟨name, names, hpath⟩ := ho.paths entry.1 (List.mem_map_of_mem hentry)
  obtain rfl : Path.ofKeys (name :: names) = p := Option.some.inj (hpath.symm.trans hp)
  rw [Mapping.get?_merge ho.nested hmerged (ho.stands hapart entry hentry _ hpath) hscalar]
  cases page.get? (Path.ofKeys (name :: names)) with
  | none => rfl
  | some old => exact congrArg some (Value.joined_replace _ old)

/-! ## Well-formedness -/

/-- An override that is added keeps the tree of the overrides well formed. -/
theorem wellFormed_put (ho : (Value.map o.nested).WellFormed) (path : String) {value : Value}
    (hvalue : value.WellFormed) : (Value.map (o.put path value).result.nested).WellFormed := by
  obtain ⟨-, hput⟩ | ⟨p, -, ⟨fault, -, hput⟩ | ⟨-, hput⟩⟩ := put_cases o path value
  · rw [hput]
    exact ho
  · rw [hput]
    exact Mapping.wellFormed_set ho hvalue p
  · rw [hput]
    exact Mapping.wellFormed_set ho hvalue p

/-- The check keeps the tree of the overrides well formed, also if it fails. -/
theorem wellFormed_validate (ho : (Value.map o.nested).WellFormed) (running page : Mapping) :
    (Value.map (o.validate running page).result.nested).WellFormed := by
  have hfold : (Value.map (Edited.foldl (fun o edit => o.put edit.1 edit.2) o
      (o.coercions running page)).result.nested).WellFormed :=
    Edited.foldl_keeps (P := fun o : Overrides => (Value.map o.nested).WellFormed)
      (fun o edit hedit ho => wellFormed_put ho edit.1 (wellFormed_of_mem_coercions hedit)) ho
  rw [validate_eq, Edited.andThen]
  split
  · exact hfold
  · split <;> exact hfold

end Overrides

end LayeredConfig
