import LayeredConfig.Proofs.Override.Filing
import Mathlib.Data.List.Forall2

/-!
# What the check of overrides tells

An override is checked against the value that stands at its path, in the running configuration
or else in the page (`Override.Stands`).  It is good if that value has its kind.  It can be
mended if it is a text in square brackets in the place of a sequence (`Override.Mends`).
Everything else is bad.

The check of one override tells these three apart (`Override.verdict_cases`).  The check of all
of them fails exactly if one is bad, and blames the bad ones in their order.  Whether it fails
or not, it mends what can be mended and leaves the others as they are, so that a second check
finds nothing more to mend (`Overrides.check_sorts_overrides`).
-/

namespace LayeredConfig

namespace Value

variable {v : Option Value} {w : Value}

/-- What counts as present is there and is not null. -/
theorem nonNull?_eq_some_iff : nonNull? v = some w ↔ v = some w ∧ w.isNull = false := by
  rw [nonNull?, Option.filter_eq_some_iff, Bool.not_eq_true']

/-- What does not count as present is null, if it is there. -/
theorem nonNull?_eq_none_iff : nonNull? v = none ↔ ∀ w, v = some w → w.isNull = true := by
  rw [nonNull?, Option.filter_eq_none_iff]
  simp

end Value

namespace Override

/-- An override at the path is checked against this value: what the running configuration
holds there, or else the page.  Null counts for nothing. -/
inductive Stands (running page : Mapping) (path : String) (old : Value) : Prop
  | inRunning (hfind : running.find? path = some old) (hpresent : old.isNull = false)
  | inPage (hnone : ∀ v, running.find? path = some v → v.isNull = true)
      (hfind : page.find? path = some old) (hpresent : old.isNull = false)

/-- The value that stands has the kind of the override. -/
def Good (running page : Mapping) (entry : String × Value) : Prop :=
  ∃ old, Stands running page entry.1 old ∧ old.kind = entry.2.kind

/-- The override is a text in square brackets where a sequence stands.  It is mended to the
sequence of the texts between the commas. -/
def Mends (running page : Mapping) (entry : String × Value) (v : Value) : Prop :=
  ∃ items inner, Stands running page entry.1 (.seq items) ∧
    entry.2 = .str (String.ofList ('[' :: (inner ++ [']']))) ∧
    v = .seq ((inner.splitOn ',').map fun part => .str (String.ofList part))

/-- The override is neither good nor can it be mended. -/
def Bad (running page : Mapping) (entry : String × Value) : Prop :=
  ¬ Good running page entry ∧ ∀ v, ¬ Mends running page entry v

/-- What the check leaves of an override: what it is mended to, or what it was. -/
structure ComesTo (running page : Mapping) (entry after : String × Value) : Prop where
  path : after.1 = entry.1
  mended : ∀ v, Mends running page entry v → after.2 = v
  kept : (∀ v, ¬ Mends running page entry v) → after.2 = entry.2

/-! ## Texts in brackets -/

/-- The parts between the commas are those between which the commas split. -/
theorem commaParts_eq_splitOn (cs : List Char) : commaParts cs = cs.splitOn ',' := by
  induction cs with
  | nil => rfl
  | cons c cs ih =>
      rw [commaParts, List.splitOn, List.splitOnP_cons_eq_if_modifyHead]
      by_cases hcomma : c = ','
      · rw [if_pos hcomma, if_pos (beq_iff_eq.mpr hcomma), ih]
        rfl
      · rw [if_neg hcomma, if_neg (mt beq_iff_eq.mp hcomma), ih, List.splitOn]
        cases hparts : cs.splitOnP (· == ',') with
        | nil => exact absurd hparts (List.splitOnP_ne_nil _ _)
        | cons part parts => rfl

/-- A text has something in brackets if it starts with the one and ends with the other. -/
theorem bracketed?_eq_some_iff {text : String} {inner : List Char} :
    bracketed? text = some inner ↔ text = String.ofList ('[' :: (inner ++ [']'])) := by
  rw [← String.toList_inj, String.toList_ofList, bracketed?]
  constructor
  · intro h
    split at h
    · next rest htext =>
        split at h
        · next hlast =>
            obtain ⟨front, rfl⟩ := List.getLast?_eq_some_iff.mp hlast
            rw [List.dropLast_concat] at h
            rw [htext, Option.some.inj h]
        · contradiction
    · contradiction
  · intro h
    simp [h]

/-- A value can be mended if it is a text in brackets in the place of a sequence. -/
theorem coerce?_eq_some_iff {old value v : Value} :
    coerce? old value = some v ↔ ∃ items inner, old = .seq items ∧
      value = .str (String.ofList ('[' :: (inner ++ [']']))) ∧
      v = .seq ((inner.splitOn ',').map fun part => .str (String.ofList part)) := by
  constructor
  · intro h
    rw [coerce?.eq_def] at h
    split at h
    · next items text =>
        obtain ⟨inner, hinner, rfl⟩ := Option.map_eq_some_iff.mp h
        rw [commaParts_eq_splitOn]
        exact ⟨items, inner, rfl, congrArg Value.str (bracketed?_eq_some_iff.mp hinner), rfl⟩
    · contradiction
  · rintro ⟨items, inner, rfl, rfl, rfl⟩
    rw [coerce?, bracketed?_eq_some_iff.mpr rfl, Option.map_some, commaParts_eq_splitOn]

/-! ## The check of one override -/

section Verdict

variable {running page : Mapping} {path : String} {old : Value} {entry : String × Value}

/-- The value that stands is the one that the check looks up. -/
theorem stands_iff : Stands running page path old ↔
    (Value.nonNull? (running.find? path) <|> Value.nonNull? (page.find? path)) = some old := by
  rw [Option.orElse_eq_orElse, Option.orElse_eq_or, Option.or_eq_some_iff,
    Value.nonNull?_eq_some_iff, Value.nonNull?_eq_some_iff, Value.nonNull?_eq_none_iff]
  constructor
  · rintro (⟨hfind, hpresent⟩ | ⟨hnone, hfind, hpresent⟩)
    · exact Or.inl ⟨hfind, hpresent⟩
    · exact Or.inr ⟨hnone, hfind, hpresent⟩
  · rintro (⟨hfind, hpresent⟩ | ⟨hnone, hfind, hpresent⟩)
    · exact .inRunning hfind hpresent
    · exact .inPage hnone hfind hpresent

/-- At most one value stands at a path. -/
theorem Stands.unique {old' : Value} (h : Stands running page path old)
    (h' : Stands running page path old') : old = old' :=
  Option.some.inj ((stands_iff.mp h).symm.trans (stands_iff.mp h'))

/-- Whether a value stands at a path can be decided. -/
instance : Decidable (∃ old, Stands running page path old) :=
  decidable_of_iff
    (Value.nonNull? (running.find? path) <|> Value.nonNull? (page.find? path)).isSome
    (Option.isSome_iff_exists.trans (exists_congr fun _ => stands_iff.symm))

/-- What a bad override is blamed for: nothing stands at its path, or something of another
kind. -/
def blame (running page : Mapping) (entry : String × Value) : OverrideFailure :=
  if ∃ old, Stands running page entry.1 old then .mistyped entry.1 else .missing entry.1

/-- Where a value stands, an override is mended to what the value makes of it. -/
theorem mends_iff (h : Stands running page entry.1 old) {v : Value} :
    Mends running page entry v ↔ coerce? old entry.2 = some v := by
  rw [coerce?_eq_some_iff]
  constructor
  · rintro ⟨items, inner, hstands, htext⟩
    exact ⟨items, inner, h.unique hstands, htext⟩
  · rintro ⟨items, inner, rfl, htext⟩
    exact ⟨items, inner, h, htext⟩

/-- **The check of one override** tells whether it is good, can be mended or is bad. -/
theorem verdict_cases (running page : Mapping) (entry : String × Value) :
    Good running page entry ∧ (∀ v, ¬ Mends running page entry v) ∧
      verdict running page entry.1 entry.2 = .fits ∨
    (∃ v, Mends running page entry v ∧ verdict running page entry.1 entry.2 = .coerced v) ∨
    Bad running page entry ∧
      verdict running page entry.1 entry.2 = .rejected (blame running page entry) := by
  rw [verdict]
  cases hold : (Value.nonNull? (running.find? entry.1) <|>
      Value.nonNull? (page.find? entry.1)) with
  | none =>
      have hnone : ∀ old, ¬ Stands running page entry.1 old := by
        intro old hstands
        exact Option.some_ne_none old ((stands_iff.mp hstands).symm.trans hold)
      refine Or.inr (Or.inr ⟨⟨?_, ?_⟩, ?_⟩)
      · rintro ⟨old, hstands, -⟩
        exact hnone old hstands
      · rintro v ⟨items, inner, hstands, -⟩
        exact hnone _ hstands
      · rw [blame, if_neg (not_exists.mpr hnone)]
  | some old =>
      have hstands : Stands running page entry.1 old := stands_iff.mpr hold
      dsimp only
      by_cases hkind : old.kind = entry.2.kind
      · refine Or.inl ⟨⟨old, hstands, hkind⟩, ?_, if_pos hkind⟩
        intro v hv
        obtain ⟨items, inner, rfl, hvalue, -⟩ := coerce?_eq_some_iff.mp ((mends_iff hstands).mp hv)
        rw [hvalue] at hkind
        cases hkind
      · rw [if_neg hkind]
        cases hcoerce : coerce? old entry.2 with
        | some v => exact Or.inr (Or.inl ⟨v, (mends_iff hstands).mpr hcoerce, rfl⟩)
        | none =>
            refine Or.inr (Or.inr ⟨⟨?_, ?_⟩, ?_⟩)
            · rintro ⟨old', hstands', hkind'⟩
              exact hkind (hstands.unique hstands' ▸ hkind')
            · intro v hv
              exact Option.some_ne_none v (((mends_iff hstands).mp hv).symm.trans hcoerce)
            · rw [blame, if_pos ⟨old, hstands⟩]

/-- The bad overrides are the rejected ones. -/
theorem bad_iff : Bad running page entry ↔
    (verdict running page entry.1 entry.2).failure?.isSome := by
  obtain ⟨hgood, -, hverdict⟩ | ⟨v, hmends, hverdict⟩ | ⟨hbad, hverdict⟩ :=
    verdict_cases running page entry
  · rw [hverdict]
    exact ⟨fun hbad => absurd hgood hbad.1, nofun⟩
  · rw [hverdict]
    exact ⟨fun hbad => absurd hmends (hbad.2 v), nofun⟩
  · rw [hverdict]
    exact ⟨fun _ => rfl, fun _ => hbad⟩

/-- Whether an override is bad can be decided. -/
instance : DecidablePred (Bad running page) := fun _ =>
  decidable_of_iff _ bad_iff.symm

/-- A bad override is rejected with what it is blamed for, and no other one is. -/
theorem failure?_verdict : (verdict running page entry.1 entry.2).failure? =
    if Bad running page entry then some (blame running page entry) else none := by
  split
  · next hbad =>
      obtain ⟨hgood, -, -⟩ | ⟨v, hmends, -⟩ | ⟨-, hverdict⟩ := verdict_cases running page entry
      · exact absurd hgood hbad.1
      · exact absurd hmends (hbad.2 v)
      · rw [hverdict]
        rfl
  · next hbad => simpa [bad_iff] using hbad

/-- What the check leaves of an override. -/
theorem comesTo_settled (running page : Mapping) (entry : String × Value) :
    ComesTo running page entry (entry.1, Overrides.settled running page entry) := by
  have hunique : ∀ v w, Mends running page entry v → Mends running page entry w → v = w := by
    rintro v w ⟨items, inner, -, hvalue, rfl⟩ ⟨items', inner', -, hvalue', rfl⟩
    have htext := String.ofList_injective (Value.str.inj (hvalue.symm.trans hvalue'))
    rw [List.append_cancel_right (List.cons.inj htext).2]
  rw [Overrides.settled]
  obtain ⟨-, hnone, hverdict⟩ | ⟨v, hmends, hverdict⟩ | ⟨hbad, hverdict⟩ :=
    verdict_cases running page entry
  · rw [hverdict]
    exact ⟨rfl, fun v hv => absurd hv (hnone v), fun _ => rfl⟩
  · rw [hverdict]
    exact ⟨rfl, fun w hw => hunique v w hmends hw, fun hnone => absurd hmends (hnone v)⟩
  · rw [hverdict]
    exact ⟨rfl, fun v hv => absurd hv (hbad.2 v), fun _ => rfl⟩

/-- An override that is not rejected has, once it is settled, the kind of the value that
stands. -/
theorem exists_stands_of_accepted
    (h : (verdict running page entry.1 entry.2).failure? = none) :
    ∃ old, Stands running page entry.1 old ∧
      old.kind = (Overrides.settled running page entry).kind := by
  rw [Overrides.settled]
  obtain ⟨⟨old, hstands, hkind⟩, -, hverdict⟩ | ⟨v, ⟨items, inner, hstands, -, rfl⟩, hverdict⟩ |
    ⟨-, hverdict⟩ := verdict_cases running page entry
  · rw [hverdict]
    exact ⟨old, hstands, hkind⟩
  · rw [hverdict]
    exact ⟨.seq items, hstands, rfl⟩
  · rw [hverdict] at h
    contradiction

/-- The check settles one override after the other. -/
theorem forall₂_comesTo (running page flat : Mapping) :
    List.Forall₂ (ComesTo running page) flat
      (flat.map fun entry => (entry.1, Overrides.settled running page entry)) := by
  rw [List.forall₂_map_right_iff, List.forall₂_same]
  intro entry _
  exact comesTo_settled running page entry

/-- What is not coerced stays what it was. -/
theorem settled_of_coerced?_eq_none
    (h : (verdict running page entry.1 entry.2).coerced? = none) :
    Overrides.settled running page entry = entry.2 := by
  rw [Overrides.settled, h]
  rfl

/-- **A settled override is checked as before**, only that there is nothing more to mend. -/
theorem verdict_settled (running page : Mapping) (entry : String × Value) :
    (verdict running page entry.1 (Overrides.settled running page entry)).failure? =
        (verdict running page entry.1 entry.2).failure? ∧
      (verdict running page entry.1 (Overrides.settled running page entry)).coerced? = none := by
  obtain ⟨-, -, hverdict⟩ | ⟨v, ⟨items, inner, hstands, -, rfl⟩, hverdict⟩ | ⟨-, hverdict⟩ :=
    verdict_cases running page entry
  · rw [settled_of_coerced?_eq_none (by rw [hverdict]; rfl), hverdict]
    exact ⟨rfl, rfl⟩
  · -- the mended value is a sequence, like the one that stands
    have hfits : verdict running page entry.1 (Overrides.settled running page entry) = .fits := by
      rw [Overrides.settled, hverdict, verdict, stands_iff.mp hstands]
      rfl
    rw [hfits, hverdict]
    exact ⟨rfl, rfl⟩
  · rw [settled_of_coerced?_eq_none (by rw [hverdict]; rfl), hverdict]
    exact ⟨rfl, rfl⟩

end Verdict

end Override

namespace Overrides

open Override

variable {o : Overrides} {running page : Mapping}

/-- The check rejects the bad overrides, in their order. -/
theorem rejections_eq (o : Overrides) (running page : Mapping) :
    o.rejections running page =
      (o.flat.filter fun entry => Bad running page entry).map (blame running page) := by
  rw [rejections, ← List.filterMap_eq_map, List.filterMap_filter]
  apply List.filterMap_congr
  intro entry _
  rw [failure?_verdict]
  simp

/-- The check leaves the overrides settled, also if it fails. -/
theorem Filed.flat_validate (ho : o.Filed) (running page : Mapping) :
    (o.validate running page).result.flat =
      o.flat.map fun entry => (entry.1, settled running page entry) := by
  obtain ⟨checked, -, hflat, hvalid⟩ := ho.checked running page
  rw [hvalid]
  split
  · exact hflat
  · exact hflat

/-- The check reports the bad overrides, if there are any. -/
theorem Filed.failure_validate (ho : o.Filed) (running page : Mapping) :
    (o.validate running page).failure =
      if ∀ entry ∈ o.flat, ¬ Bad running page entry then none
      else some (.overrideChecks
        ((o.flat.filter fun entry => Bad running page entry).map (blame running page))) := by
  have hnone : (o.rejections running page).isEmpty ↔
      ∀ entry ∈ o.flat, ¬ Bad running page entry := by
    rw [rejections_eq, List.isEmpty_iff, List.map_eq_nil_iff, List.filter_eq_nil_iff]
    simp only [decide_eq_true_eq]
  obtain ⟨checked, -, -, hvalid⟩ := ho.checked running page
  rw [hvalid]
  by_cases hgood : ∀ entry ∈ o.flat, ¬ Bad running page entry
  · rw [if_pos hgood, if_pos (hnone.mpr hgood)]
    rfl
  · rw [if_neg hgood, if_neg (mt hnone.mp hgood), rejections_eq]
    rfl

/-- **A second check** comes out like the first and changes nothing more. -/
theorem Filed.validate_validate (ho : o.Filed) (running page : Mapping) :
    (o.validate running page).result.validate running page = o.validate running page := by
  obtain ⟨checked, -, hflat, hvalid⟩ := ho.checked running page
  have hresult : (o.validate running page).result = checked := by
    rw [hvalid]
    split
    · rfl
    · rfl
  have hcoercions : checked.coercions running page = [] := by
    rw [coercions, hflat, List.filterMap_map, List.filterMap_eq_nil_iff]
    intro entry _
    simp [(verdict_settled running page entry).2]
  have hrejections : checked.rejections running page = o.rejections running page := by
    rw [rejections, rejections, hflat, List.filterMap_map]
    apply List.filterMap_congr
    intro entry _
    exact (verdict_settled running page entry).1
  rw [hresult, validate_eq, hcoercions, Edited.foldl, Edited.done_andThen, hrejections, hvalid]

/-- **The check sorts the overrides.**  It succeeds exactly if none is bad, and else blames the
bad ones, each once and in their order.  Either way it mends those that can be mended, leaves
the others and the order of all, and a second check comes out like the first and changes nothing
more. -/
theorem check_sorts_overrides {tokens : List String} (hparse : parse tokens = .ok o)
    (running page : Mapping) :
    o.flat.keys.Nodup ∧
    ((o.validate running page).failure = none ↔
      ∀ entry ∈ o.flat, ¬ Bad running page entry) ∧
    (∀ e, (o.validate running page).failure = some e →
      e = .overrideChecks
        ((o.flat.filter fun entry => Bad running page entry).map (blame running page))) ∧
    List.Forall₂ (ComesTo running page) o.flat (o.validate running page).result.flat ∧
    (o.validate running page).result.validate running page = o.validate running page := by
  have ho : o.Filed := filed_of_parse hparse
  rw [ho.failure_validate, ho.flat_validate]
  refine ⟨ho.flat, ?_, ?_, forall₂_comesTo running page o.flat, ho.validate_validate running page⟩
  · split
    · next hgood => exact ⟨fun _ => hgood, fun _ => rfl⟩
    · next hbad => exact ⟨nofun, fun hgood => absurd hgood hbad⟩
  · intro e he
    split at he
    · contradiction
    · exact (Option.some.inj he).symm

/-- Overrides of all sorts: one that can be mended, a good one, and two bad ones. -/
def survey : Overrides :=
  (parse ["hosts=[a,b]", "port=80", "name=5", "gone=1"]).toOption.getD .empty

/-- The configuration that the survey is checked against. -/
def surveyRunning : Mapping :=
  [("port", .int 1), ("hosts", .null)]

/-- The page that the survey is checked against where the configuration has nothing. -/
def surveyPage : Mapping :=
  [("hosts", .seq [.str "x"]), ("name", .str "shop"), ("gone", .null)]

/-- The hosts are mended although the check fails, and the bad ones are blamed in their order. -/
theorem survey_is_sorted :
    parse ["hosts=[a,b]", "port=80", "name=5", "gone=1"] = .ok survey ∧
      (survey.validate surveyRunning surveyPage).failure =
        some (.overrideChecks [.mistyped "name", .missing "gone"]) ∧
      Error.overrideChecks [.mistyped "name", .missing "gone"] = .overrideChecks
        ((survey.flat.filter fun entry => Bad surveyRunning surveyPage entry).map
          (blame surveyRunning surveyPage)) ∧
      Mends surveyRunning surveyPage ("hosts", .str "[a,b]") (.seq [.str "a", .str "b"]) ∧
      List.Forall₂ (ComesTo surveyRunning surveyPage) survey.flat
        (survey.validate surveyRunning surveyPage).result.flat ∧
      (survey.validate surveyRunning surveyPage).result.validate surveyRunning surveyPage =
        survey.validate surveyRunning surveyPage := by
  have hparse : parse ["hosts=[a,b]", "port=80", "name=5", "gone=1"] = .ok survey := by
    have hread : (parse ["hosts=[a,b]", "port=80", "name=5", "gone=1"]).toOption.any
        (fun _ => true) = true := by decide +kernel
    obtain ⟨o, ho, -⟩ := exists_ok_of_any hread
    rw [survey, ho]
    rfl
  have hfailure : (survey.validate surveyRunning surveyPage).failure =
      some (.overrideChecks [.mistyped "name", .missing "gone"]) := by decide +kernel
  have hstands : Stands surveyRunning surveyPage "hosts" (.seq [.str "x"]) :=
    stands_iff.mpr rfl
  obtain ⟨-, -, hblamed, hcomes, hagain⟩ :=
    check_sorts_overrides hparse surveyRunning surveyPage
  exact ⟨hparse, hfailure, hblamed _ hfailure,
    ⟨[.str "x"], ['a', ',', 'b'], hstands, rfl, rfl⟩, hcomes, hagain⟩

end Overrides

end LayeredConfig
