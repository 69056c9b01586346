import LayeredConfig.Proofs.Placeholder.Sequence
import LayeredConfig.Proofs.Resolve.Flat

/-!
# The keys of a text, one after the other

A text in which nothing is nested has its keys filled in one after the other, each in the text
as the keys before left it.  Two things are asked of such a run: whether the text stays a text,
and what it is in the end.

* `foldlM_fillKey_str`: it stays a text as long as it keeps a property that no lone placeholder
  has;
* `foldlM_fillKey_once`: in an undisturbed text key after key is all at once, by induction on
  the keys to come.
-/

namespace LayeredConfig

open Placeholder

variable {strict : Bool} {pass : Pass} {expand : String → Value → Except Unresolved Value}
  {text : String}

/-- **Keys that are filled in leave a text a text** if it has a property of the keys to come
that no lone placeholder of the first of them has, and that is kept. -/
theorem foldlM_fillKey_str {Q : String → Prop} {P : List String → String → Prop}
    (hwrap : ∀ key ks, Q key → ¬ P (key :: ks) (wrap key))
    (hskip : ∀ key ks text, P (key :: ks) text → P ks text)
    (hput : ∀ key ks text found u, Q key → P (key :: ks) text → pass.find? key = some found →
      expand key found = .ok u → P ks (substitute key u.toText text))
    {ks : List String} (hks : ∀ key ∈ ks, Q key) (h : P ks text) {v : Value}
    (hv : ks.foldlM (fillKey strict pass expand) (.str text) = .ok v) :
    ∃ out, v = .str out ∧ P [] out := by
  refine (foldlM_keeps (I := fun ks v => (∀ key ∈ ks, Q key) ∧ ∃ out, v = .str out ∧ P ks out)
    ?_ ⟨hks, text, rfl, h⟩ hv).2
  rintro key ks _ next ⟨hks, text, rfl, h⟩ hnext
  have hkey : Q key := hks key List.mem_cons_self
  refine ⟨fun k hk => hks k (List.mem_cons_of_mem _ hk), ?_⟩
  cases hfound : pass.find? key with
  | none =>
      rw [fillKey_of_find?_eq_none hfound] at hnext
      split at hnext
      · contradiction
      · exact ⟨text, (Except.ok.inj hnext).symm, hskip key ks text h⟩
  | some found =>
      obtain ⟨u, hexpand, -⟩ : ∃ u, expand key found = .ok u ∧ _ := by
        simp only [fillKey, hfound] at hnext
        exact bind_ok hnext
      have hne : text ≠ wrap key := by
        rintro rfl
        exact hwrap key ks hkey h
      rw [fillKey_of_find? hfound hexpand, if_neg hne] at hnext
      exact ⟨_, (Except.ok.inj hnext).symm, hput key ks text found u hkey h hfound hexpand⟩

/-- The written form of what a pass puts in the place of a key's placeholder. -/
def Pass.text? (pass : Pass) (key : String) : Option String :=
  (pass.find? key).map Value.toText

/-- **Key after key is all at once** in an undisturbed text, by induction on the keys to
come. -/
theorem foldlM_fillKey_once
    (hexpand : ∀ key ∈ keys text, ∀ found, pass.find? key = some found →
      expand key found = .ok found)
    (hundisturbed : Undisturbed pass.text? text) {front behind : List String}
    (hsplit : (keys text).eraseDups = front ++ behind) :
    ∃ v, behind.foldlM (fillKey false pass expand)
        (.str (fill (valuesOf front pass.text?) text)) = .ok v ∧
      v.toText = fill pass.text? text := by
  induction behind generalizing front with
  | nil =>
      have hall : ∀ key ∈ keys text, key ∈ front := by
        intro key hkey
        rwa [← List.mem_eraseDups, hsplit, List.append_nil] at hkey
      exact ⟨_, rfl, fill_valuesOf_keys hall⟩
  | cons key behind ih =>
      have hsplit' : (keys text).eraseDups = (front ++ [key]) ++ behind := by
        rw [hsplit, List.append_assoc, List.singleton_append]
      have hnext := ih hsplit'
      obtain ⟨hmem, hinert, hnew⟩ :=
        (of_eraseDups_keys_eq_append hsplit).2 key List.mem_cons_self
      rw [List.foldlM_cons]
      cases hfound : pass.find? key with
      | none =>
          have hnone : pass.text? key = none := by rw [Pass.text?, hfound]; rfl
          rw [fillKey_of_find?_eq_none hfound]
          rwa [fill_valuesOf_concat front hnone] at hnext
      | some found =>
          have hsome : pass.text? key = some found.toText := by rw [Pass.text?, hfound]; rfl
          have hcount := hundisturbed front key behind hsplit (by simp [hsome])
          have hput := substitute_fill_valuesOf hinert hnew hcount hsome
          rw [fillKey_of_find? hfound (hexpand key hmem found hfound)]
          by_cases hwrap : fill (valuesOf front pass.text?) text = wrap key
          · obtain rfl := eq_nil_of_fill_eq_wrap hsplit hwrap
            have hall : ∀ k ∈ keys text, k ∈ front ++ [key] := by
              intro k hk
              rwa [← List.mem_eraseDups, hsplit] at hk
            rw [if_pos hwrap]
            refine ⟨found, rfl, ?_⟩
            rw [← fill_valuesOf_keys hall, ← hput, hwrap, substitute_wrap hinert]
          · rw [if_neg hwrap, hput]
            exact hnext

/-- All keys of an undisturbed text are filled in at once. -/
theorem foldlM_fillKey_keys
    (hexpand : ∀ key ∈ keys text, ∀ found, pass.find? key = some found →
      expand key found = .ok found)
    (hundisturbed : Undisturbed pass.text? text) :
    ∃ v, (keys text).eraseDups.foldlM (fillKey false pass expand) (.str text) = .ok v ∧
      v.toText = fill pass.text? text := by
  have hstart : fill (valuesOf [] pass.text?) text = text :=
    fill_of_forall_none fun _ _ => if_neg List.not_mem_nil
  have honce := foldlM_fillKey_once hexpand hundisturbed (List.nil_append _).symm
  rwa [hstart] at honce

end LayeredConfig
