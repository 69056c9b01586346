import LayeredConfig.Proofs.Placeholder.Pieces
import LayeredConfig.Proofs.Resolve.Walk
import LayeredConfig.Proofs.Tree.Edits

/-!
# One level of resolution

`Resolver.resolveLevel` resolves a text and leaves the texts that it calls for to
another resolution, the deeper one.  There are two kinds of calls: a placeholder
that is nested in the text is looked up below the same trail, and a value that was
found is resolved below a trail that is longer by its path.  This file says what a
level takes from the deeper resolution, and nothing else.

* `resolveLevel_congr`: the results, at exactly these calls;
* `resolveLevel_error`: its errors, besides an unknown placeholder where that is
  an error.

Both are carried from the smallest part, one key of one text, up to the level.
-/

namespace LayeredConfig

open Placeholder

/-! ## What a level takes over -/

section Congr

variable {f g : TextResolution} {trail : Trail}

/-- With one pass, a text goes through that pass. -/
theorem throughPasses_singleton (resolve : Pass → String → Except Unresolved Value)
    (pass : Pass) (text : String) : throughPasses resolve [pass] text = resolve pass text := by
  simp only [throughPasses, List.foldlM_cons, List.foldlM_nil]
  exact bind_pure (resolve pass text)

/-- A text without nested placeholders is collapsed already. -/
theorem collapse_of_nestedKeys_eq_nil {text : String} (h : nestedKeys text = [])
    (value : String → Except Unresolved Value) (rounds : Nat) :
    collapse value rounds text = .ok text := by
  cases rounds with
  | zero => rfl
  | succ rounds => simp [collapse, h]

/-- Collapsing looks up wrapped keys only. -/
theorem collapse_congr {value other : String → Except Unresolved Value}
    (h : ∀ key : String, Inert key.toList → value (wrap key) = other (wrap key))
    (rounds : Nat) (text : String) : collapse value rounds text = collapse other rounds text := by
  induction rounds generalizing text with
  | zero => rfl
  | succ rounds ih =>
      have hround : ∀ key ∈ (nestedKeys text).eraseDups, value (wrap key) = other (wrap key) :=
        fun key hkey =>
          h key (inert_of_mem_keys (mem_keys_of_mem_nestedKeys (List.mem_eraseDups.mp hkey)))
      rw [collapse, collapse]
      simp only [ih]
      rw [foldlM_congr_mem fun key hkey next => by rw [hround key hkey]]

/-- Filling in the keys of a text takes from the expansion what it does with the
values that the pass finds for them. -/
theorem fillKeys_congr {strict : Bool} {pass : Pass}
    {expand other : String → Value → Except Unresolved Value} {keys : List String}
    (h : ∀ key ∈ keys, ∀ found, pass.find? key = some found →
      expand key found = other key found) (current : Value) :
    keys.foldlM (fillKey strict pass expand) current =
      keys.foldlM (fillKey strict pass other) current := by
  refine foldlM_congr_mem (fun key hkey current => ?_) current
  cases current with
  | str text =>
      cases hfound : pass.find? key with
      | none => simp only [fillKey, hfound]
      | some found => simp only [fillKey, hfound, h key hkey found hfound]
  | _ => rfl

end Congr

namespace Resolver

variable {r : Resolver} {admits : Trail → String → Bool} {f g : TextResolution}
  {trail : Trail} {pass : Pass}

/-- Without room on the trail a value stays as found. -/
theorem expand_of_not_admits {key : String} (h : admits trail (pathText key) = false)
    (found : Value) : r.expand admits f trail pass key found = .ok found := by
  simp [expand, h]

/-- A text that was found is left to the deeper resolution if it holds a placeholder and
that is asked for. -/
theorem expand_str {key : String} (h : admits trail (pathText key) = true) (text : String) :
    r.expand admits f trail pass key (.str text) =
      if r.options.nestedResolution && contains text then
        f (trail ++ [pathText key]) pass text
      else .ok (.str text) := by
  simp [expand, h]

/-- Of any other value that was found the leaves are left to the deeper resolution. -/
theorem expand_of_ne_str {key : String} (h : admits trail (pathText key) = true)
    {found : Value} (hfound : ∀ text, found ≠ .str text) :
    r.expand admits f trail pass key found =
      (found.resolveLeaves (f (trail ++ [pathText key]) pass)
        (resolveKeys r.options.keyResolution
          (throughPasses (f (trail ++ [pathText key])) r.passes))).toExcept := by
  cases found with
  | str text => exact absurd rfl (hfound text)
  | _ => simp [expand, h]

/-- Expansion makes its calls below the trail with the key's path on it. -/
theorem expand_congr
    (h : ∀ path, admits trail path = true → f (trail ++ [path]) = g (trail ++ [path]))
    (key : String) (found : Value) :
    r.expand admits f trail pass key found = r.expand admits g trail pass key found := by
  unfold expand
  by_cases hadmits : admits trail (pathText key) = true
  · simp only [h _ hadmits]
  · simp only [hadmits]
    rfl

/-- **What a level takes over.**  Two deeper resolutions that agree on the texts a
text is collapsed with, and below every longer trail that is admitted, lead to the
same level. -/
theorem resolveLevel_congr {text : String}
    (hcollapse : nestedKeys text ≠ [] → ∀ key : String, Inert key.toList →
      throughPasses (f trail) r.passes (wrap key) = throughPasses (g trail) r.passes (wrap key))
    (hexpand : ∀ path, admits trail path = true → f (trail ++ [path]) = g (trail ++ [path])) :
    r.resolveLevel admits f trail pass text = r.resolveLevel admits g trail pass text := by
  have hcollapsed : collapse (throughPasses (f trail) r.passes) collapseLimit text =
      collapse (throughPasses (g trail) r.passes) collapseLimit text := by
    by_cases hn : nestedKeys text = []
    · rw [collapse_of_nestedKeys_eq_nil hn, collapse_of_nestedKeys_eq_nil hn]
    · exact collapse_congr (hcollapse hn) collapseLimit text
  have hexpanded : r.expand admits f trail pass = r.expand admits g trail pass :=
    funext fun key => funext fun found => expand_congr hexpand key found
  simp only [resolveLevel, hcollapsed, hexpanded]

/-- A lone text is resolved by what a resolution does below the empty trail. -/
theorem resolveScalarBy_congr (h : f [] = g []) (text : String) :
    r.resolveScalarBy f text = r.resolveScalarBy g text := by
  rw [resolveScalarBy, resolveScalarBy, h]

/-- A tree is resolved by what a resolution does below the empty trail. -/
theorem resolveAllBy_congr (h : f [] = g []) (tree : Mapping) :
    r.resolveAllBy f tree = r.resolveAllBy g tree := by
  have hscalar : r.resolveScalarBy f = r.resolveScalarBy g := funext (resolveScalarBy_congr h)
  have hpass : r.resolvePassBy f = r.resolvePassBy g := by
    funext pass tree
    rw [resolvePassBy, resolvePassBy, h, hscalar]
  rw [resolveAllBy, resolveAllBy, hpass]

end Resolver

/-! ## Where errors come from -/

section Errors

variable {P : Unresolved → Prop} {value : String → Except Unresolved Value}

/-- A text that goes through passes fails in one of them. -/
theorem throughPasses_error {resolve : Pass → String → Except Unresolved Value}
    (h : ∀ pass text e, resolve pass text = .error e → P e) {passes : List Pass} {text : String}
    {e : Unresolved} (he : throughPasses resolve passes text = .error e) : P e := by
  refine foldlM_error (fun current pass e he => ?_) he
  cases current with
  | str text => exact h pass text e he
  | _ => contradiction

/-- Collapsing fails where a look-up fails. -/
theorem collapse_error (h : ∀ text e, value text = .error e → P e) {rounds : Nat}
    {text : String} {e : Unresolved} (he : collapse value rounds text = .error e) : P e := by
  induction rounds generalizing text with
  | zero => contradiction
  | succ rounds ih =>
      rw [collapse] at he
      split at he
      · contradiction
      · rcases bind_error he with hround | ⟨next, -, hrest⟩
        · refine foldlM_error (fun next key e he => ?_) hround
          rcases bind_error he with hkey | ⟨v, -, hput⟩
          · exact h _ e hkey
          · split at hput <;> contradiction
        · split at hrest
          · contradiction
          · exact ih hrest

/-- Filling in a key fails where its value cannot be expanded, or where it is
unknown and that is an error. -/
theorem fillKey_error {strict : Bool} {pass : Pass}
    {expand : String → Value → Except Unresolved Value}
    (hmissing : strict = true → ∀ placeholder, P (.missing placeholder))
    (h : ∀ key found e, expand key found = .error e → P e) {current : Value} {key : String}
    {e : Unresolved} (he : fillKey strict pass expand current key = .error e) : P e := by
  unfold fillKey at he
  split at he
  · split at he
    · next found hfound =>
        rcases bind_error he with hexpand | ⟨v, -, hput⟩
        · exact h key found e hexpand
        · split at hput <;> contradiction
    · split at he
      · next hstrict =>
          obtain rfl := Except.error.inj he
          exact hmissing (Bool.and_eq_true_iff.mp hstrict).1 _
      · contradiction
  · contradiction

/-- Resolving keys fails where a key cannot be looked up. -/
theorem resolveKeys_failure {enabled : Bool} (h : ∀ text e, value text = .error e → P e)
    {m : Mapping} {e : Unresolved} (he : (resolveKeys enabled value m).failure = some e) : P e := by
  unfold resolveKeys at he
  split at he
  · obtain ⟨m', key, -, hstep⟩ := Edited.failure_foldl he
    split at hstep
    · split at hstep <;> simp at hstep
    · next e' hkey =>
        obtain rfl : e' = e := Option.some.inj hstep
        exact h key e' hkey
  · simp at he

end Errors

namespace Resolver

variable {P : Unresolved → Prop} {r : Resolver} {admits : Trail → String → Bool}
  {deeper : TextResolution}

/-- Expansion fails where a deeper text fails. -/
theorem expand_error (h : ∀ trail pass text e, deeper trail pass text = .error e → P e)
    {trail : Trail} {pass : Pass} {key : String} {found : Value} {e : Unresolved}
    (he : r.expand admits deeper trail pass key found = .error e) : P e := by
  by_cases hadmits : admits trail (pathText key) = true
  · by_cases hstr : ∃ text, found = .str text
    · obtain ⟨text, rfl⟩ := hstr
      rw [expand_str hadmits] at he
      split at he
      · exact h _ _ _ e he
      · contradiction
    · rw [expand_of_ne_str hadmits fun text htext => hstr ⟨text, htext⟩,
        Edited.toExcept_eq_error_iff] at he
      refine Value.resolveLeaves_failure (fun text e he => h _ _ _ e he) (fun m e he => ?_) he
      exact resolveKeys_failure
        (fun text e he => throughPasses_error (fun pass text e he => h _ _ _ e he) he) he
  · rw [expand_of_not_admits (by simpa using hadmits)] at he
    contradiction

/-- **Where the errors of a level come from.**  They are errors of the deeper
resolution, or a placeholder is unknown and that is an error. -/
theorem resolveLevel_error
    (hmissing : r.options.failOnUnresolvable = true → ∀ placeholder, P (.missing placeholder))
    (h : ∀ trail pass text e, deeper trail pass text = .error e → P e) {trail : Trail}
    {pass : Pass} {text : String} {e : Unresolved}
    (he : r.resolveLevel admits deeper trail pass text = .error e) : P e := by
  unfold resolveLevel at he
  rcases bind_error he with hcollapse | ⟨collapsed, -, hkeys⟩
  · exact collapse_error
      (fun text e he => throughPasses_error (fun pass text e he => h _ _ _ e he) he) hcollapse
  · refine foldlM_error (fun current key e he => ?_) hkeys
    exact fillKey_error hmissing (fun key found e he => expand_error h he) he

/-- A lone text fails where a text below the empty trail fails. -/
theorem resolveScalarBy_error {run : TextResolution}
    (h : ∀ pass text e, run [] pass text = .error e → P e) {text : String} {e : Unresolved}
    (he : r.resolveScalarBy run text = .error e) : P e :=
  throughPasses_error h he

/-- A tree fails where a text below the empty trail fails. -/
theorem resolveAllBy_failure {run : TextResolution}
    (h : ∀ pass text e, run [] pass text = .error e → P e) {tree : Mapping} {e : Unresolved}
    (he : (r.resolveAllBy run tree).failure = some e) : P e := by
  have hkeys : ∀ m e, (resolveKeys r.options.keyResolution (r.resolveScalarBy run) m).failure =
      some e → P e :=
    fun m e he => resolveKeys_failure (fun text e he => resolveScalarBy_error h he) he
  obtain ⟨tree', pass, -, hpass⟩ := Edited.failure_foldl he
  rcases Edited.failure_andThen hpass with hentries | hrename
  · rw [Value.resolveEntries_eq_walk] at hentries
    obtain ⟨entry, -, hfail⟩ := Edited.walk_failure hentries
    exact Value.resolveLeaves_failure (h pass) hkeys hfail
  · exact hkeys _ e hrename

end Resolver

end LayeredConfig
