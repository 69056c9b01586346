import LayeredConfig.Proofs.Placeholder.Pieces
import LayeredConfig.Resolve.Layers

/-!
# What a pass finds

A pass looks a key up in its layer, and the last one falls back on the key itself.
A fallback is a part of its key, so it holds no placeholder, whatever the layer
holds.

* `Pass.find?_eq`: the value of the layer, else the fallback in the last pass;
* `Pass.find?_cases`: what was found is one or the other;
* `contains_fallback`: fallbacks hold no placeholders.
-/

namespace LayeredConfig

namespace Placeholder

/-- What is behind the first `:-` of a key is a part of the key. -/
theorem mem_of_mem_cutDefault {cs path fallback : List Char}
    (h : cutDefault cs = (path, some fallback)) {c : Char} (hc : c ∈ fallback) : c ∈ cs := by
  fun_induction cutDefault cs generalizing path with
  | case1 rest =>
      obtain rfl : rest = fallback := Option.some.inj (Prod.mk.inj h).2
      exact List.mem_cons_of_mem _ (List.mem_cons_of_mem _ hc)
  | case2 d rest _ path' fallback' hcut ih =>
      obtain rfl : fallback' = some fallback := (Prod.mk.inj h).2
      exact List.mem_cons_of_mem _ (ih hcut)
  | case3 => simp at h

/-- The characters of a fallback are characters of its key. -/
theorem mem_of_mem_fallback {key fallback : String} (h : (splitDefault key).2 = some fallback)
    {c : Char} (hc : c ∈ fallback.toList) : c ∈ key.toList := by
  obtain ⟨cs, hcs, rfl⟩ := Option.map_eq_some_iff.mp h
  rw [String.toList_ofList] at hc
  exact mem_of_mem_cutDefault (Prod.ext rfl hcs) hc

/-- A text of key characters holds no placeholder. -/
theorem contains_of_key_chars {text : String} (h : ∀ c ∈ text.toList, isKeyChar c = true) :
    contains text = false := by
  have hps : pieces text.toList = text.toList.map .char := by
    simpa [pieces] using pieces_key_append h []
  simp [contains, hps, Piece.key?]

/-- **A fallback holds no placeholder.** -/
theorem contains_fallback {key fallback : String} (hkey : Inert key.toList)
    (h : (splitDefault key).2 = some fallback) : contains fallback = false :=
  contains_of_key_chars fun _ hc => hkey.2 _ (mem_of_mem_fallback h hc)

/-- A fallback that is not empty is inert. -/
theorem inert_fallback {key fallback : String} (hkey : Inert key.toList)
    (h : (splitDefault key).2 = some fallback) (hne : fallback ≠ "") : Inert fallback.toList :=
  ⟨fun hnil => hne (String.toList_eq_nil_iff.mp hnil),
    fun _ hc => hkey.2 _ (mem_of_mem_fallback h hc)⟩

end Placeholder

open Placeholder

/-- A layer finds what its data holds, unless that is null. -/
theorem Layer.find?_eq_some_iff {layer : Layer} {path : String} {v : Value} :
    layer.find? path = some v ↔ layer.data.find? path = some v ∧ v ≠ .null := by
  rw [Layer.find?, Value.nonNull?, Option.filter_eq_some_iff]
  refine and_congr_right fun _ => ?_
  cases v <;> simp [Value.isNull]

/-- The value of the layer, else in the last pass the fallback of a key whose path can
be read. -/
theorem Pass.find?_eq (pass : Pass) (key : String) :
    pass.find? key = (pass.layer.find? (pathText key)).or
      (if pass.last && (Path.read? (pathText key)).isSome then
        (splitDefault key).2.map .str
      else none) := by
  rcases hsplit : splitDefault key with ⟨path, fallback⟩
  simp only [Pass.find?, pathText, hsplit]
  cases pass.layer.find? path <;> rfl

/-- A value of the layer is what the pass finds. -/
theorem Pass.find?_of_layer {pass : Pass} {key : String} {found : Value}
    (h : pass.layer.find? (pathText key) = some found) : pass.find? key = some found := by
  rw [Pass.find?_eq, h]
  rfl

/-- What was found is the value of the layer, or the fallback of the key. -/
theorem Pass.find?_cases {pass : Pass} {key : String} {found : Value}
    (h : pass.find? key = some found) :
    pass.layer.find? (pathText key) = some found ∨
      ∃ fallback, (splitDefault key).2 = some fallback ∧ found = .str fallback := by
  rw [Pass.find?_eq, Option.or_eq_some_iff] at h
  rcases h with hlayer | ⟨-, hfallback⟩
  · exact Or.inl hlayer
  · split at hfallback
    · obtain ⟨fallback, hsplit, rfl⟩ := Option.map_eq_some_iff.mp hfallback
      exact Or.inr ⟨fallback, hsplit, rfl⟩
    · contradiction

end LayeredConfig
