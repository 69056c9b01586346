import LayeredConfig.Proofs.Override.Checking
import LayeredConfig.Proofs.Override.Coverage
import LayeredConfig.Proofs.Tree.Fitting

/-!
# Checked overrides apply

The check looks every override up under its path as written.  The merge goes through the tree of
the overrides.  What connects the two is that the page has something at every path once the
check is passed, and that the tree of the overrides holds nothing but overrides and mappings on
the way to them.  So the tree fits the page (`Overrides.Filed.fits`), and a merge of what fits
clashes nowhere.

The page keeps its shape (`Overrides.checked_overrides_apply`): each override takes the place of
a value of its kind, what stands apart from all overrides is left alone, and no key comes or
goes.
-/

namespace LayeredConfig

namespace Overrides

open Override

/-- The place is on the way to one of the paths, at its end or below it. -/
def Meets (paths : List String) (q : Path) : Prop :=
  ∃ path ∈ paths, ∃ p, Path.read? path = some p ∧ (p <+: q ∨ q <+: p)

instance (paths : List String) (q : Path) : Decidable (Meets paths q) :=
  inferInstanceAs (Decidable (∃ path ∈ paths, ∃ p ∈ Path.read? path, p <+: q ∨ q <+: p))

variable {o o' : Overrides} {paths : List String} {path : String} {tree page : Mapping} {q : Path}

/-! ## From the check to the page -/

/-- What stands at a path without a running configuration stands there in the page. -/
theorem find?_of_stands {old : Value} (h : Stands [] page path old) :
    page.find? path = some old := by
  cases h with
  | inRunning hfind _ =>
      rw [Mapping.find?, Option.bind_eq_some_iff] at hfind
      obtain ⟨p, -, hget⟩ := hfind
      rw [Mapping.get?_nil] at hget
      contradiction
  | inPage _ hfind _ => exact hfind

/-- An override that is no mapping is none after the check. -/
theorem settled_ne_map {running : Mapping} {entry : String × Value}
    (h : ∀ m, entry.2 ≠ .map m) (m : Mapping) : settled running page entry ≠ .map m := by
  have hcomes := comesTo_settled running page entry
  by_cases hmends : ∃ v, Mends running page entry v
  · obtain ⟨v, hv⟩ := hmends
    rw [show settled running page entry = v from hcomes.mended v hv]
    obtain ⟨items, inner, -, -, rfl⟩ := hv
    nofun
  · rw [show settled running page entry = entry.2 from
      hcomes.kept (not_exists.mp hmends)]
    exact h m

/-! ## The tree of the overrides in the page -/

/-- A node of the tree meets one of the overrides. -/
theorem Covered.meets (h : Covered paths tree) {w : Value} (hw : tree.get? q = some w) :
    Meets paths q := by
  obtain ⟨path, hpath, p, hp, habove⟩ | ⟨-, path, hpath, p, hp, hway⟩ := h q w hw
  · exact ⟨path, hpath, p, hp, Or.inl habove⟩
  · exact ⟨path, hpath, p, hp, Or.inr hway⟩

/-- What is covered meets one of the paths. -/
theorem Covers.meets (h : Covers paths q) : Meets paths q := by
  obtain ⟨path, hpath, p, hp, hq⟩ := h
  exact ⟨path, hpath, p, hp, Or.inl hq⟩

/-- Outside the overrides there are only mappings on the way to them. -/
theorem Covered.mapsAlong (h : Covered paths tree) (hq : ¬ Covers paths q) :
    (Value.map tree).MapsAlong q := by
  intro r hr w hw
  by_cases hroot : r = []
  · subst hroot
    exact ⟨tree, (Option.some.inj hw).symm⟩
  · by_contra hleaf
    obtain ⟨path, hpath, p, hp, habove⟩ :=
      h.covers ((Mapping.get?_of_ne_nil hroot).trans hw) (not_exists.mp hleaf)
    exact hq ⟨path, hpath, p, hp, habove.trans hr⟩

/-- **Overrides fit a page** that has something at each of their paths, if the paths part and
none of the overrides is a mapping. -/
theorem Filed.fits (ho : o.Filed) (hcovered : Covered o.flat.keys o.nested)
    (hapart : Apart o.flat.keys) (hscalar : ∀ entry ∈ o.flat, ∀ m, entry.2 ≠ .map m)
    (hpage : ∀ path ∈ o.flat.keys, ∀ p, Path.read? path = some p →
      ∃ old, (Value.map page).at? p = some old) :
    (Value.map o.nested).Fits (.map page) := by
  intro names w hw
  by_cases hroot : Path.ofKeys names = []
  · rw [hroot]
    refine ⟨.map page, rfl, ?_⟩
    intro m _
    exact ⟨page, rfl⟩
  have hnode := (Mapping.get?_of_ne_nil hroot).trans hw
  by_cases hcovers : Covers o.flat.keys (Path.ofKeys names)
  · -- nothing stands below an override, so this is one
    obtain ⟨path, hpath, p, hp, habove⟩ := hcovers
    obtain ⟨entry, hentry, rfl⟩ := List.mem_map.mp hpath
    have hleaf := hscalar entry hentry
    have hself := Mapping.at?_of_get? (ho.stands hapart entry hentry p hp)
    obtain ⟨rfl, rfl⟩ := Value.eq_of_at?_below hself hleaf habove hw
    obtain ⟨old, hold⟩ := hpage entry.1 hpath _ hp
    refine ⟨old, hold, ?_⟩
    intro m hm
    exact absurd hm (hleaf m)
  · -- on the way to an override the page has a mapping
    obtain habove | ⟨-, path, hpath, p, hp, hway⟩ := hcovered _ w hnode
    · exact absurd habove hcovers
    obtain ⟨old, hold⟩ := hpage path hpath p hp
    obtain ⟨name, others, hkeys⟩ := ho.paths path hpath
    obtain rfl := Option.some.inj (hkeys.symm.trans hp)
    have hne : Path.ofKeys names ≠ Path.ofKeys (name :: others) := by
      intro hsame
      exact hcovers ⟨path, hpath, _, hp, hsame ▸ List.prefix_rfl⟩
    obtain ⟨m', hm'⟩ := Value.exists_map_of_prefix hold hway hne
    refine ⟨.map m', hm', ?_⟩
    intro m _
    exact ⟨m', rfl⟩

/-! ## The page after the merge -/

/-- **Checked overrides apply.**  If the paths of overrides part, none of them is a mapping, and
they pass the check against a page, then the merge into the page finishes.  Each override is
what the check makes of it, and takes the place of a value of its kind.  What meets no override
is as before, and so are the keys of every mapping outside the overrides. -/
theorem checked_overrides_apply {tokens : List String} (hparse : parse tokens = .ok o)
    (hapart : Apart o.flat.keys) (hscalar : ∀ entry ∈ o.flat, ∀ m, entry.2 ≠ .map m)
    (hvalid : o.validate [] page = .done o') :
    ∃ out, o'.apply page = .done out ∧
      List.Forall₂ (ComesTo [] page) o.flat o'.flat ∧
      (∀ entry ∈ o'.flat, ∃ p old, Path.read? entry.1 = some p ∧ page.get? p = some old ∧
        out.get? p = some entry.2 ∧ old.kind = entry.2.kind) ∧
      (∀ q, ¬ Meets o.flat.keys q → out.get? q = page.get? q) ∧
      ∀ r, ¬ Covers o.flat.keys r → (Value.map out).keysAt r = (Value.map page).keysAt r := by
  obtain ⟨ho', hflat, haccepted⟩ := (filed_of_parse hparse).validate hvalid
  have hkeys : o'.flat.keys = o.flat.keys := hflat ▸ keys_map_settled ..
  have hcovered : Covered o'.flat.keys o'.nested := by
    have hbalanced := (balanced_of_parse hparse).validate [] page
    rw [hvalid] at hbalanced
    exact hbalanced.covered
  have hstands : ∀ entry ∈ o'.flat, (∀ m, entry.2 ≠ .map m) ∧
      ∃ p old, Path.read? entry.1 = some p ∧ page.get? p = some old ∧
        old.kind = entry.2.kind := by
    intro entry hentry
    obtain ⟨before, hbefore, rfl⟩ := List.mem_map.mp (hflat ▸ hentry)
    refine ⟨settled_ne_map (hscalar before hbefore), ?_⟩
    obtain ⟨old, hstands, hkind⟩ := exists_stands_of_accepted (haccepted before hbefore)
    obtain ⟨p, hp, hold⟩ := Option.bind_eq_some_iff.mp (find?_of_stands hstands)
    exact ⟨p, old, hp, hold, hkind⟩
  have hpage : ∀ path ∈ o'.flat.keys, ∀ p, Path.read? path = some p →
      ∃ old, (Value.map page).at? p = some old := by
    intro path hpath p hp
    obtain ⟨entry, hentry, rfl⟩ := List.mem_map.mp hpath
    obtain ⟨-, p', old, hp', hold, -⟩ := hstands entry hentry
    obtain rfl := Option.some.inj (hp'.symm.trans hp)
    exact ⟨old, Mapping.at?_of_get? hold⟩
  have hfits := ho'.fits hcovered (hkeys ▸ hapart) (fun entry hentry => (hstands entry hentry).1)
    hpage
  obtain ⟨out, hout, hover⟩ := Mapping.merge_of_fits .replace ho'.nested hfits
  rw [← hkeys] at hapart ⊢
  refine ⟨out, hout, hflat ▸ forall₂_comesTo [] page o.flat, ?_, ?_, ?_⟩
  · intro entry hentry
    obtain ⟨hleaf, p, old, hp, hold, hkind⟩ := hstands entry hentry
    exact ⟨p, old, hp, hold, ho'.get?_apply hapart hout hentry hp hleaf, hkind⟩
  · intro q hq
    by_cases hroot : q = []
    · rw [hroot]
      rfl
    · have hnone : (Value.map o'.nested).at? q = none := by
        rw [← Mapping.get?_of_ne_nil hroot, Option.eq_none_iff_forall_ne_some]
        intro w hw
        exact hq (hcovered.meets hw)
      rw [Mapping.get?_of_ne_nil hroot, Mapping.get?_of_ne_nil hroot]
      exact hover.at?_of_fits hfits (hcovered.mapsAlong (mt Covers.meets hq)) hnone
  · intro r hr
    exact hover.keysAt_of_fits hfits (hcovered.mapsAlong hr)

/-- Overrides for a shop and its hosts. -/
def stallOverrides : Overrides :=
  (parse ["hosts=[a,b]", "shop.name=Fig"]).toOption.getD .empty

/-- A page of a shop. -/
def stallPage : Mapping :=
  [("hosts", .seq [.str "x"]), ("shop", .map [("name", .str "Nut"), ("owner", .str "Eve")])]

/-- The hosts take the place of a sequence and the name that of a text.  The owner and the order
of the keys stay. -/
theorem stallOverrides_apply :
    parse ["hosts=[a,b]", "shop.name=Fig"] = .ok stallOverrides ∧
      Apart stallOverrides.flat.keys ∧
      (∀ entry ∈ stallOverrides.flat, ∀ m, entry.2 ≠ .map m) ∧
      ∃ o' out, stallOverrides.validate [] stallPage = .done o' ∧
        o'.apply stallPage = .done out ∧
        List.Forall₂ (ComesTo [] stallPage) stallOverrides.flat o'.flat ∧
        (∀ entry ∈ o'.flat, ∃ p old, Path.read? entry.1 = some p ∧
          stallPage.get? p = some old ∧ out.get? p = some entry.2 ∧ old.kind = entry.2.kind) ∧
        out.get? [.key "shop", .key "owner"] = some (.str "Eve") ∧
        (Value.map out).keysAt [.key "shop"] = ["name", "owner"] ∧
        (Value.map out).keysAt [] = ["hosts", "shop"] := by
  have hread : (parse ["hosts=[a,b]", "shop.name=Fig"]).toOption.any (fun o =>
      o.flat.keys = ["hosts", "shop.name"] ∧ (∀ entry ∈ o.flat, entry.2.kind ≠ .mapping) ∧
        (o.validate [] stallPage).failure = none) = true := by decide +kernel
  obtain ⟨o, hparse, hfacts⟩ := exists_ok_of_any hread
  obtain ⟨hkeys, hkinds, hvalid⟩ := of_decide_eq_true hfacts
  obtain rfl : stallOverrides = o := by
    rw [stallOverrides, hparse]
    rfl
  have hapart : Apart stallOverrides.flat.keys := by
    rw [hkeys]
    decide
  have hscalar : ∀ entry ∈ stallOverrides.flat, ∀ m, entry.2 ≠ .map m := by
    intro entry hentry m hm
    apply hkinds entry hentry
    rw [hm]
    rfl
  obtain ⟨out, hout, hcomes, hstands, hframe, hshape⟩ :=
    checked_overrides_apply hparse hapart hscalar (Edited.eq_done hvalid)
  rw [hkeys] at hframe hshape
  exact ⟨hparse, hapart, hscalar, _, out, Edited.eq_done hvalid, hout, hcomes, hstands,
    hframe _ (by decide), hshape _ (by decide), hshape _ (by decide)⟩

end Overrides

end LayeredConfig
