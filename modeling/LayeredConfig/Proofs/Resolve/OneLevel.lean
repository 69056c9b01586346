import LayeredConfig.Proofs.Resolve.Sequence

/-!
# Values put in without being resolved

Without nested resolution a value is put in as it was found, with the placeholders that it
carries.  Substitution is meant to go one level deep: every placeholder of a text becomes its
value, all at once, and what the values carry stays.

The resolver puts in one key after the other, in the text as the keys before left it.  So a
placeholder that a value brought in gives way to its own value after all, if its key is one of
those still to come (`carried_placeholder_is_put_in`).  A text is undisturbed if this does not
happen: whatever is put in for the keys before it, a key has as many placeholders as at first.
Undisturbed texts have one level put in all at once (`one_level_is_put_in_at_once`).
-/

namespace LayeredConfig

open Placeholder

/-- Without nested resolution a scalar is expanded to itself. -/
theorem Resolver.expand_of_scalar {r : Resolver} (hnested : r.options.nestedResolution = false)
    {admits : Trail → String → Bool} {deeper : TextResolution} {trail : Trail} {pass : Pass}
    {key : String} {found : Value} (hfound : found.isComposite = false) :
    r.expand admits deeper trail pass key found = .ok found := by
  by_cases hadmits : admits trail (pathText key) = true
  · cases found with
    | str text => rw [expand_str hadmits, hnested]; rfl
    | seq items => contradiction
    | map entries => contradiction
    | _ =>
        rw [expand_of_ne_str hadmits (by simp)]
        rfl
  · exact expand_of_not_admits (by simpa using hadmits) found

/-- **One level is put in all at once.**  Against one layer, without nested resolution and with
unknown placeholders allowed, a text in which nothing is nested, and whose placeholders name
scalars, resolves if it is undisturbed.  What it resolves to is written as the text with every
placeholder replaced by the written form of the layer's value, or else by the fallback behind a
path that can be read, wherever in the text it stands.  What the values carry stays, and so do
placeholders that have neither. -/
theorem one_level_is_put_in_at_once (layer : Layer) (keyResolution : Bool) {text : String}
    (hflat : nestedKeys text = [])
    (hscalar : ∀ key ∈ keys text, ∀ v, (Pass.mk layer true).find? key = some v →
      v.isComposite = false)
    (hundisturbed : Undisturbed (Pass.mk layer true).text? text) :
    let r : Resolver := ⟨[layer], ⟨false, false, keyResolution⟩⟩
    ∃ v, r.resolveScalar text = .ok v ∧ v.toText = fill (Pass.mk layer true).text? text := by
  intro r
  have hr : r.passes = [⟨layer, true⟩] := rfl
  have hexpand : ∀ key ∈ keys text, ∀ found, (Pass.mk layer true).find? key = some found →
      r.expand Trail.admits r.auditedText [] ⟨layer, true⟩ key found = .ok found :=
    fun key hkey found hfound => Resolver.expand_of_scalar rfl (hscalar key hkey found hfound)
  rw [Resolver.resolveScalar_of_flat hr hflat]
  exact foldlM_fillKey_keys hexpand hundisturbed

/-- A layer with a word, and a text that carries the placeholder of another key. -/
def carryingLayer : Layer :=
  ⟨"carrying", [("x", .str "end"), ("y", .str "${/z}"), ("z", .bool true)]⟩

/-- In either order the placeholder that is carried in stays. -/
theorem carried_placeholder_stays :
    let r : Resolver := ⟨[carryingLayer], ⟨false, false, false⟩⟩
    ∀ text ∈ ["${/y} ${/x}", "${/x} ${/y}"],
      nestedKeys text = [] ∧ Undisturbed (Pass.mk carryingLayer true).text? text ∧
      (∀ key ∈ keys text, ∀ v, (Pass.mk carryingLayer true).find? key = some v →
        v.isComposite = false) ∧
      ∃ v, r.resolveScalar text = .ok v ∧
        v.toText = fill (Pass.mk carryingLayer true).text? text ∧
        v.toText ∈ ["${/z} end", "end ${/z}"] := by
  intro r text htext
  have hwrap : wrap "/z" = "${/z}" := by decide
  have hx : (Pass.mk carryingLayer true).find? "/x" = some (.str "end") := rfl
  have hy : (Pass.mk carryingLayer true).find? "/y" = some (.str "${/z}") := rfl
  have hkeys : ∀ key, key ∈ keys text ↔ key = "/x" ∨ key = "/y" := by
    have hfirst : keys "${/y} ${/x}" = ["/y", "/x"] := by decide
    have hsecond : keys "${/x} ${/y}" = ["/x", "/y"] := by decide
    intro key
    rcases List.mem_pair.mp htext with rfl | rfl
    · rw [hfirst, List.mem_pair, or_comm]
    · rw [hsecond, List.mem_pair]
  have hflat : nestedKeys text = [] := by
    rcases List.mem_pair.mp htext with rfl | rfl <;> decide
  have hscalar : ∀ key ∈ keys text, ∀ v, (Pass.mk carryingLayer true).find? key = some v →
      v.isComposite = false := by
    intro key hkey v hv
    rcases (hkeys key).mp hkey with rfl | rfl
    · rw [hx] at hv
      exact Option.some.inj hv ▸ rfl
    · rw [hy] at hv
      exact Option.some.inj hv ▸ rfl
  have hundisturbed : Undisturbed (Pass.mk carryingLayer true).text? text := by
    have htidy : TidyValues {"/z"} (Pass.mk carryingLayer true).text? text := by
      intro key hkey new hnew
      rcases (hkeys key).mp hkey with rfl | rfl
      · obtain rfl : "end" = new := Option.some.inj hnew
        exact tidyText_of_key_chars (by decide)
      · obtain rfl : "${/z}" = new := Option.some.inj hnew
        exact hwrap ▸ tidyText_wrap (by decide) rfl
    refine undisturbed_of_tidy hflat htidy (fun key hkey => ?_) ?_
    · rcases (hkeys key).mp hkey with rfl | rfl <;> decide
    · rintro key hkey rfl
      exact absurd ((hkeys "/z").mp hkey) (by decide)
  obtain ⟨v, hv, hwritten⟩ :=
    one_level_is_put_in_at_once carryingLayer false hflat hscalar hundisturbed
  refine ⟨hflat, hundisturbed, hscalar, v, hv, hwritten, ?_⟩
  rw [hwritten]
  rcases List.mem_pair.mp htext with rfl | rfl <;> decide

/-- A layer with a text that carries the placeholder of another one. -/
def chainedLayer : Layer :=
  ⟨"chained", [("x", .str "end"), ("y", .str "${/x}")]⟩

/-- **A placeholder that is carried in** in front of one with the same key gives way to the
value as that one does; behind it, it stays. -/
theorem carried_placeholder_is_put_in :
    let r : Resolver := ⟨[chainedLayer], ⟨false, false, false⟩⟩
    (nestedKeys "${/y} ${/x}" = [] ∧ nestedKeys "${/x} ${/y}" = []) ∧
      (∀ key ∈ ["/x", "/y"], ∃ text, (Pass.mk chainedLayer true).find? key = some (.str text)) ∧
      fill (Pass.mk chainedLayer true).text? "${/y} ${/x}" = "${/x} end" ∧
      r.resolveScalar "${/y} ${/x}" = .ok (.str "end end") ∧
      r.resolveScalar "${/x} ${/y}" = .ok (.str "end ${/x}") := by
  intro r
  have hr : r.passes = [⟨chainedLayer, true⟩] := rfl
  have hx : (Pass.mk chainedLayer true).find? "/x" = some (.str "end") := rfl
  have hy : (Pass.mk chainedLayer true).find? "/y" = some (.str "${/x}") := rfl
  have hexpand : ∀ key text, r.expand Trail.admits r.auditedText [] ⟨chainedLayer, true⟩ key
      (.str text) = .ok (.str text) := fun _ _ => Resolver.expand_of_scalar rfl rfl
  have hfound : ∀ key ∈ ["/x", "/y"],
      ∃ text, (Pass.mk chainedLayer true).find? key = some (.str text) := by
    intro key hkey
    rcases List.mem_pair.mp hkey with rfl | rfl
    · exact ⟨_, hx⟩
    · exact ⟨_, hy⟩
  refine ⟨⟨by decide, by decide⟩, hfound, by decide, ?_, ?_⟩
  · have hkeys : (keys "${/y} ${/x}").eraseDups = ["/y", "/x"] := by decide
    have hfirst : substitute "/y" (Value.str "${/x}").toText "${/y} ${/x}" = "${/x} ${/x}" := by
      decide
    have hsecond : substitute "/x" (Value.str "end").toText "${/x} ${/x}" = "end end" := by decide
    rw [Resolver.resolveScalar_of_flat hr (by decide), hkeys,
      foldlM_fillKey_put hy (hexpand _ _) (by decide), hfirst,
      foldlM_fillKey_put hx (hexpand _ _) (by decide), hsecond]
    rfl
  · have hkeys : (keys "${/x} ${/y}").eraseDups = ["/x", "/y"] := by decide
    have hfirst : substitute "/x" (Value.str "end").toText "${/x} ${/y}" = "end ${/y}" := by
      decide
    have hsecond : substitute "/y" (Value.str "${/x}").toText "end ${/y}" = "end ${/x}" := by
      decide
    rw [Resolver.resolveScalar_of_flat hr (by decide), hkeys,
      foldlM_fillKey_put hx (hexpand _ _) (by decide), hfirst,
      foldlM_fillKey_put hy (hexpand _ _) (by decide), hsecond]
    rfl

end LayeredConfig
