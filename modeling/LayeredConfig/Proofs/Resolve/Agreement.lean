import LayeredConfig.Proofs.Resolve.Level

/-!
# Resolutions that agree

Two runs *agree up to* certain errors if the first one ends in such an error, or both
end alike: in the same value, in the same error, after the same edits.  Nothing in the
resolver catches an error, so an error of a deeper text is the error of the text above
it.  Hence agreement passes upwards: if the deeper resolutions agree, so do the levels
above them, and with them whole resolutions of any depth.

Two kinds of errors are of interest.

* Up to unknown placeholders a strict resolver agrees with the lenient one: strictness
  adds errors and changes nothing else.
* Up to `endless` a resolution agrees with any deeper one: the depth cuts a run off and
  changes nothing else.  So a run that *returns* at some depth, that is without being
  cut off, returns the same at every larger depth.

The main statement on levels is `resolveLevel_agree`; `resolveText_agree` carries it
through all depths, `resolveAllBy_agree` and `resolveScalarBy_agree` to trees and lone
texts.
-/

namespace LayeredConfig

open Placeholder

/-! ## Agreement -/

section Agreement

variable {ε ε' α β : Type} {P : ε → Prop}

/-- The first outcome is an error of the class, or the two outcomes are the same. -/
def AgreeUpTo (P : ε → Prop) (x y : Except ε α) : Prop :=
  (∃ e, P e ∧ x = .error e) ∨ x = y

/-- An outcome agrees with itself. -/
theorem AgreeUpTo.refl (x : Except ε α) : AgreeUpTo P x x :=
  Or.inr rfl

/-- Runs that agree in either case agree. -/
theorem AgreeUpTo.ite {c : Prop} [Decidable c] {x x' y y' : Except ε α} (h : AgreeUpTo P x y)
    (h' : AgreeUpTo P x' y') : AgreeUpTo P (if c then x else x') (if c then y else y') := by
  split
  · exact h
  · exact h'

/-- Runs that agree agree when they are continued in ways that agree. -/
theorem AgreeUpTo.bind {x y : Except ε α} {f g : α → Except ε β} (h : AgreeUpTo P x y)
    (hnext : ∀ a, AgreeUpTo P (f a) (g a)) : AgreeUpTo P (x >>= f) (y >>= g) := by
  rcases h with ⟨e, he, rfl⟩ | rfl
  · exact Or.inl ⟨e, he, rfl⟩
  · cases x with
    | error e => exact Or.inr rfl
    | ok a => exact hnext a

/-- Chains of steps that agree agree. -/
theorem AgreeUpTo.foldlM {step other : β → α → Except ε β}
    (h : ∀ b a, AgreeUpTo P (step b a) (other b a)) (as : List α) (b : β) :
    AgreeUpTo P (as.foldlM step b) (as.foldlM other b) := by
  induction as generalizing b with
  | nil => exact AgreeUpTo.refl _
  | cons a as ih =>
      rw [List.foldlM_cons, List.foldlM_cons]
      exact (h b a).bind ih

namespace Edited

/-- The first edit stopped at an error of the class, or the two edits are the same. -/
def AgreeUpTo (P : ε → Prop) (r s : Edited ε α) : Prop :=
  (∃ e, P e ∧ r.failure = some e) ∨ r = s

/-- An edit agrees with itself. -/
theorem AgreeUpTo.refl (r : Edited ε α) : AgreeUpTo P r r :=
  Or.inr rfl

/-- Edits that agree agree inside a larger structure. -/
theorem AgreeUpTo.map {r s : Edited ε α} (h : AgreeUpTo P r s) (f : α → β) :
    AgreeUpTo P (r.map f) (s.map f) := by
  rcases h with hfail | rfl
  · exact Or.inl hfail
  · exact Or.inr rfl

/-- Edits that agree agree when they are continued in ways that agree. -/
theorem AgreeUpTo.andThen {r s : Edited ε α} {next other : α → Edited ε α}
    (h : AgreeUpTo P r s) (hnext : ∀ a, AgreeUpTo P (next a) (other a)) :
    AgreeUpTo P (r.andThen next) (s.andThen other) := by
  rcases h with ⟨e, he, hfail⟩ | rfl
  · refine Or.inl ⟨e, he, ?_⟩
    rw [Edited.andThen, hfail]
  · cases hfail : r.failure with
    | some e => exact Or.inr (by rw [Edited.andThen, Edited.andThen, hfail])
    | none =>
        rw [eq_done hfail, done_andThen, done_andThen]
        exact hnext r.result

/-- Chains of edits that agree agree. -/
theorem AgreeUpTo.foldl {step other : β → α → Edited ε β}
    (h : ∀ b a, AgreeUpTo P (step b a) (other b a)) (as : List α) (b : β) :
    AgreeUpTo P (foldl step b as) (foldl other b as) := by
  induction as generalizing b with
  | nil => exact AgreeUpTo.refl _
  | cons a as ih => exact (h b a).andThen ih

/-- Walks that agree on every member agree. -/
theorem AgreeUpTo.walk {edit other : α → Edited ε α} {as : List α}
    (h : ∀ a ∈ as, AgreeUpTo P (edit a) (other a)) :
    AgreeUpTo P (walk edit as) (walk other as) := by
  induction as with
  | nil => exact AgreeUpTo.refl _
  | cons a rest ih =>
      have hrest := ih fun b hb => h b (List.mem_cons_of_mem _ hb)
      rw [Edited.walk, Edited.walk]
      rcases h a List.mem_cons_self with ⟨e, he, hfail⟩ | hsame
      · rw [hfail]
        exact Or.inl ⟨e, he, rfl⟩
      · rw [hsame]
        cases (other a).failure with
        | some e => exact AgreeUpTo.refl _
        | none => exact hrest.map _

/-- Edits that agree have outcomes that agree. -/
theorem AgreeUpTo.toExcept {r s : Edited ε α} (h : AgreeUpTo P r s) :
    LayeredConfig.AgreeUpTo P r.toExcept s.toExcept := by
  rcases h with ⟨e, he, hfail⟩ | rfl
  · exact Or.inl ⟨e, he, toExcept_eq_error_iff.mpr hfail⟩
  · exact LayeredConfig.AgreeUpTo.refl _

end Edited

end Agreement

/-! ## The parts of a level -/

section Parts

variable {P : Unresolved → Prop}

/-- Texts that go through passes agree if every pass does. -/
theorem throughPasses_agree {resolve other : Pass → String → Except Unresolved Value}
    (h : ∀ pass text, AgreeUpTo P (resolve pass text) (other pass text)) (passes : List Pass)
    (text : String) :
    AgreeUpTo P (throughPasses resolve passes text) (throughPasses other passes text) := by
  refine AgreeUpTo.foldlM (fun current pass => ?_) passes _
  cases current with
  | str text => exact h pass text
  | _ => exact AgreeUpTo.refl _

/-- Collapsed texts agree if the look-ups do. -/
theorem collapse_agree {value other : String → Except Unresolved Value}
    (h : ∀ text, AgreeUpTo P (value text) (other text)) (rounds : Nat) (text : String) :
    AgreeUpTo P (collapse value rounds text) (collapse other rounds text) := by
  induction rounds generalizing text with
  | zero => exact AgreeUpTo.refl _
  | succ rounds ih =>
      rw [collapse, collapse]
      split
      · exact AgreeUpTo.refl _
      · refine AgreeUpTo.bind (AgreeUpTo.foldlM (fun next key => ?_) _ _) fun next => ?_
        · exact (h (wrap key)).bind fun v => AgreeUpTo.refl _
        · exact (AgreeUpTo.refl _).ite (ih next)

/-- Keys that are filled in agree if the expansions do, and if strictness is the same or
adds errors of the class. -/
theorem fillKey_agree {strict strict' : Bool} {pass : Pass}
    {expand other : String → Value → Except Unresolved Value}
    (hstrict : strict = strict' ∨ strict' = false ∧ ∀ placeholder, P (.missing placeholder))
    (h : ∀ key found, AgreeUpTo P (expand key found) (other key found)) (current : Value)
    (key : String) :
    AgreeUpTo P (fillKey strict pass expand current key)
      (fillKey strict' pass other current key) := by
  unfold fillKey
  split
  · split
    · exact (h _ _).bind fun v => AgreeUpTo.refl _
    · rcases hstrict with rfl | ⟨rfl, hmissing⟩
      · exact AgreeUpTo.refl _
      · cases strict && pass.last with
        | true => exact Or.inl ⟨_, hmissing _, rfl⟩
        | false => exact AgreeUpTo.refl _
  · exact AgreeUpTo.refl _

/-- Keys of mappings that are resolved agree if the look-ups do. -/
theorem resolveKeys_agree {value other : String → Except Unresolved Value}
    (h : ∀ text, AgreeUpTo P (value text) (other text)) (enabled : Bool) (m : Mapping) :
    Edited.AgreeUpTo P (resolveKeys enabled value m) (resolveKeys enabled other m) := by
  unfold resolveKeys
  split
  · refine Edited.AgreeUpTo.foldl (fun m key => ?_) _ _
    rcases h key with ⟨e, he, hfail⟩ | hsame
    · rw [hfail]
      exact Or.inl ⟨e, he, rfl⟩
    · rw [hsame]
      exact Edited.AgreeUpTo.refl _
  · exact Edited.AgreeUpTo.refl _

/-- **Walks over a tree agree** if the functions for its texts and for its keys do. -/
theorem Value.resolveLeaves_agree {f g : String → Except Unresolved Value}
    {k k' : Mapping → Edited Unresolved Mapping}
    (hf : ∀ text, LayeredConfig.AgreeUpTo P (f text) (g text))
    (hk : ∀ m, Edited.AgreeUpTo P (k m) (k' m)) (v : Value) :
    Edited.AgreeUpTo P (v.resolveLeaves f k) (v.resolveLeaves g k') := by
  induction v using tree_induction with
  | text text =>
      rw [resolveLeaves, resolveLeaves]
      split
      · rcases hf text with ⟨e, he, hfail⟩ | hsame
        · rw [hfail]
          exact Or.inl ⟨e, he, rfl⟩
        · rw [hsame]
          exact Edited.AgreeUpTo.refl _
      · exact Edited.AgreeUpTo.refl _
  | other v hv hother =>
      rw [resolveLeaves_of_other hv hother, resolveLeaves_of_other hv hother]
      exact Edited.AgreeUpTo.refl _
  | seq items ih =>
      rw [resolveLeaves, resolveLeaves, resolveItems_eq_walk, resolveItems_eq_walk]
      exact (Edited.AgreeUpTo.walk ih).map _
  | map entries ih =>
      rw [resolveLeaves, resolveLeaves, resolveEntries_eq_walk, resolveEntries_eq_walk]
      have hentries : ∀ entry ∈ entries,
          Edited.AgreeUpTo P (resolveEntry f k entry) (resolveEntry g k' entry) :=
        fun entry hentry => (ih entry hentry).map (entry.1, ·)
      exact ((Edited.AgreeUpTo.walk hentries).andThen hk).map _

end Parts

/-! ## Levels and depths -/

namespace Resolver

/-- The resolver with strictness switched on or off. -/
def setStrict (r : Resolver) (strict : Bool) : Resolver :=
  { r with options := { r.options with failOnUnresolvable := strict } }

variable {P : Unresolved → Prop} {r : Resolver} {admits : Trail → String → Bool}
  {strict strict' : Bool} {f g : TextResolution}

/-- Expansions agree if the deeper resolutions do. -/
theorem expand_agree (h : ∀ trail pass text, AgreeUpTo P (f trail pass text) (g trail pass text))
    (trail : Trail) (pass : Pass) (key : String) (found : Value) :
    AgreeUpTo P ((r.setStrict strict).expand admits f trail pass key found)
      ((r.setStrict strict').expand admits g trail pass key found) := by
  by_cases hadmits : admits trail (pathText key) = true
  · by_cases hstr : ∃ text, found = .str text
    · obtain ⟨text, rfl⟩ := hstr
      rw [expand_str hadmits, expand_str hadmits]
      exact (h _ pass text).ite (AgreeUpTo.refl _)
    · have hne : ∀ text, found ≠ .str text := fun text htext => hstr ⟨text, htext⟩
      rw [expand_of_ne_str hadmits hne, expand_of_ne_str hadmits hne]
      refine Edited.AgreeUpTo.toExcept (Value.resolveLeaves_agree (h _ pass) (fun m => ?_) found)
      exact resolveKeys_agree (throughPasses_agree (h _) _) _ m
  · have hfull : admits trail (pathText key) = false := by simpa using hadmits
    rw [expand_of_not_admits hfull, expand_of_not_admits hfull]
    exact AgreeUpTo.refl _

/-- **Levels agree** if the deeper resolutions do, and if strictness is the same or adds
errors of the class. -/
theorem resolveLevel_agree
    (hstrict : strict = strict' ∨ strict' = false ∧ ∀ placeholder, P (.missing placeholder))
    (h : ∀ trail pass text, AgreeUpTo P (f trail pass text) (g trail pass text))
    (trail : Trail) (pass : Pass) (text : String) :
    AgreeUpTo P ((r.setStrict strict).resolveLevel admits f trail pass text)
      ((r.setStrict strict').resolveLevel admits g trail pass text) := by
  unfold resolveLevel
  refine AgreeUpTo.bind ?_ fun collapsed => AgreeUpTo.foldlM (fun current key => ?_) _ _
  · exact collapse_agree (throughPasses_agree (h trail) _) _ text
  · exact fillKey_agree hstrict (expand_agree h trail pass) current key

/-- **Resolutions agree** if strictness is the same or adds errors of the class, and if
the depth is the same or cuts off with an error of the class. -/
theorem resolveText_agree
    (hstrict : strict = strict' ∨ strict' = false ∧ ∀ placeholder, P (.missing placeholder))
    {depth depth' : Nat} (hdepth : depth = depth' ∨ depth ≤ depth' ∧ P .endless)
    (trail : Trail) (pass : Pass) (text : String) :
    AgreeUpTo P (resolveText admits (r.setStrict strict) depth trail pass text)
      (resolveText admits (r.setStrict strict') depth' trail pass text) := by
  induction depth generalizing depth' trail pass text with
  | zero =>
      rcases hdepth with rfl | ⟨-, hendless⟩
      · exact AgreeUpTo.refl _
      · exact Or.inl ⟨_, hendless, rfl⟩
  | succ depth ih =>
      obtain ⟨depth', rfl⟩ : ∃ n, depth' = n + 1 := ⟨depth' - 1, by omega⟩
      have hdepth' : depth = depth' ∨ depth ≤ depth' ∧ P .endless :=
        hdepth.imp Nat.succ.inj (And.imp_left Nat.le_of_succ_le_succ)
      exact resolveLevel_agree hstrict (ih hdepth') trail pass text

/-- Lone texts agree if the resolutions do. -/
theorem resolveScalarBy_agree
    (h : ∀ pass text, AgreeUpTo P (f [] pass text) (g [] pass text)) (text : String) :
    AgreeUpTo P ((r.setStrict strict).resolveScalarBy f text)
      ((r.setStrict strict').resolveScalarBy g text) :=
  throughPasses_agree h _ text

/-- **Trees agree** if the resolutions do. -/
theorem resolveAllBy_agree
    (h : ∀ pass text, AgreeUpTo P (f [] pass text) (g [] pass text)) (tree : Mapping) :
    Edited.AgreeUpTo P ((r.setStrict strict).resolveAllBy f tree)
      ((r.setStrict strict').resolveAllBy g tree) := by
  refine Edited.AgreeUpTo.foldl (fun tree pass => ?_) _ tree
  have hkeys : ∀ m, Edited.AgreeUpTo P
      (resolveKeys r.options.keyResolution ((r.setStrict strict).resolveScalarBy f) m)
      (resolveKeys r.options.keyResolution ((r.setStrict strict').resolveScalarBy g) m) :=
    resolveKeys_agree (resolveScalarBy_agree h) _
  refine Edited.AgreeUpTo.andThen ?_ hkeys
  rw [Value.resolveEntries_eq_walk, Value.resolveEntries_eq_walk]
  refine Edited.AgreeUpTo.walk fun entry _ => ?_
  exact (Value.resolveLeaves_agree (h pass) hkeys entry.2).map _

/-! ## Runs that return -/

/-- A run over a tree returns an outcome if it ends in it at some depth, without being cut
off there. -/
def ReturnsTree (r : Resolver) (tree : Mapping) (out : Edited Unresolved Mapping) : Prop :=
  out.failure ≠ some .endless ∧
    ∃ depth, r.resolveAllBy (resolveText Trail.admits r depth) tree = out

/-- A run over a lone text returns an outcome if it ends in it at some depth, without
being cut off there. -/
def ReturnsText (r : Resolver) (text : String) (out : Except Unresolved Value) : Prop :=
  out ≠ .error .endless ∧
    ∃ depth, r.resolveScalarBy (resolveText Trail.admits r depth) text = out

/-- A resolution agrees with any deeper one, up to being cut off. -/
theorem resolveText_agree_of_le {depth depth' : Nat} (hle : depth ≤ depth') (trail : Trail)
    (pass : Pass) (text : String) :
    AgreeUpTo (· = .endless) (resolveText admits r depth trail pass text)
      (resolveText admits r depth' trail pass text) :=
  resolveText_agree (P := (· = .endless)) (r := r)
    (Or.inl (Eq.refl r.options.failOnUnresolvable)) (Or.inr ⟨hle, rfl⟩) trail pass text

/-- A run over a tree that returns at one depth returns the same at a larger one. -/
theorem resolveAllBy_of_le {depth depth' : Nat} (hle : depth ≤ depth') {tree : Mapping}
    (h : (r.resolveAllBy (resolveText Trail.admits r depth) tree).failure ≠ some .endless) :
    r.resolveAllBy (resolveText Trail.admits r depth') tree =
      r.resolveAllBy (resolveText Trail.admits r depth) tree := by
  have hagree : Edited.AgreeUpTo (· = .endless)
      (r.resolveAllBy (resolveText Trail.admits r depth) tree)
      (r.resolveAllBy (resolveText Trail.admits r depth') tree) :=
    resolveAllBy_agree (r := r) (resolveText_agree_of_le hle []) tree
  rcases hagree with ⟨e, rfl, hfail⟩ | hsame
  · exact absurd hfail h
  · exact hsame.symm

/-- A run over a text that returns at one depth returns the same at a larger one. -/
theorem resolveScalarBy_of_le {depth depth' : Nat} (hle : depth ≤ depth') {text : String}
    (h : r.resolveScalarBy (resolveText Trail.admits r depth) text ≠ .error .endless) :
    r.resolveScalarBy (resolveText Trail.admits r depth') text =
      r.resolveScalarBy (resolveText Trail.admits r depth) text := by
  have hagree : AgreeUpTo (· = .endless)
      (r.resolveScalarBy (resolveText Trail.admits r depth) text)
      (r.resolveScalarBy (resolveText Trail.admits r depth') text) :=
    resolveScalarBy_agree (r := r) (resolveText_agree_of_le hle []) text
  rcases hagree with ⟨e, rfl, hfail⟩ | hsame
  · exact absurd hfail h
  · exact hsame.symm

/-- **A run over a tree returns one outcome at most.** -/
theorem ReturnsTree.unique {tree : Mapping} {out out' : Edited Unresolved Mapping}
    (h : r.ReturnsTree tree out) (h' : r.ReturnsTree tree out') : out = out' := by
  obtain ⟨hout, depth, rfl⟩ := h
  obtain ⟨hout', depth', rfl⟩ := h'
  rcases Nat.le_total depth depth' with hle | hle
  · exact (resolveAllBy_of_le hle hout).symm
  · exact resolveAllBy_of_le hle hout'

/-- **A run over a text returns one outcome at most.** -/
theorem ReturnsText.unique {text : String} {out out' : Except Unresolved Value}
    (h : r.ReturnsText text out) (h' : r.ReturnsText text out') : out = out' := by
  obtain ⟨hout, depth, rfl⟩ := h
  obtain ⟨hout', depth', rfl⟩ := h'
  rcases Nat.le_total depth depth' with hle | hle
  · exact (resolveScalarBy_of_le hle hout).symm
  · exact resolveScalarBy_of_le hle hout'

/-- What a resolver makes of a tree is what the run returns, unless it was cut off. -/
theorem returnsTree_resolveAll {tree : Mapping}
    (h : (r.resolveAll tree).failure ≠ some .endless) : r.ReturnsTree tree (r.resolveAll tree) :=
  ⟨h, reentryLimit, rfl⟩

/-- What a resolver makes of a text is what the run returns, unless it was cut off. -/
theorem returnsText_resolveScalar {text : String}
    (h : r.resolveScalar text ≠ .error .endless) : r.ReturnsText text (r.resolveScalar text) :=
  ⟨h, reentryLimit, rfl⟩

/-! ## Strict and lenient runs -/

/-- The error is about an unknown placeholder. -/
def IsMissing (e : Unresolved) : Prop :=
  ∃ placeholder, e = .missing placeholder

/-- A strict resolution agrees with the lenient one, up to unknown placeholders. -/
theorem resolveText_strict_agree (r : Resolver) (depth : Nat) (trail : Trail) (pass : Pass)
    (text : String) :
    AgreeUpTo IsMissing (resolveText admits (r.setStrict true) depth trail pass text)
      (resolveText admits (r.setStrict false) depth trail pass text) :=
  resolveText_agree (P := IsMissing) (r := r)
    (Or.inr ⟨rfl, fun placeholder => ⟨placeholder, rfl⟩⟩) (Or.inl rfl) trail pass text

/-- **A strict run over a tree** stops at an unknown placeholder, or does what the lenient
one does. -/
theorem resolveAll_strict_agree (r : Resolver) (depth : Nat) (tree : Mapping) :
    Edited.AgreeUpTo IsMissing
      ((r.setStrict true).resolveAllBy
        (resolveText Trail.admits (r.setStrict true) depth) tree)
      ((r.setStrict false).resolveAllBy
        (resolveText Trail.admits (r.setStrict false) depth) tree) :=
  resolveAllBy_agree (resolveText_strict_agree r depth []) tree

/-- **A strict run over a text** fails at an unknown placeholder, or does what the lenient
one does. -/
theorem resolveScalar_strict_agree (r : Resolver) (depth : Nat) (text : String) :
    AgreeUpTo IsMissing
      ((r.setStrict true).resolveScalarBy
        (resolveText Trail.admits (r.setStrict true) depth) text)
      ((r.setStrict false).resolveScalarBy
        (resolveText Trail.admits (r.setStrict false) depth) text) :=
  resolveScalarBy_agree (resolveText_strict_agree r depth []) text

/-- The errors of a resolution are unknown placeholders, where they are errors, and being
cut off. -/
theorem resolveText_error {depth : Nat} {trail : Trail} {pass : Pass} {text : String}
    {e : Unresolved} (h : resolveText admits r depth trail pass text = .error e) :
    r.options.failOnUnresolvable = true ∧ IsMissing e ∨ e = .endless := by
  induction depth generalizing trail pass text e with
  | zero => exact Or.inr (Except.error.inj h).symm
  | succ depth ih =>
      refine resolveLevel_error (fun hstrict placeholder => ?_) (fun _ _ _ _ he => ih he) h
      exact Or.inl ⟨hstrict, placeholder, rfl⟩

/-- **A lenient run over a tree that returns** returns no error. -/
theorem ReturnsTree.failure_eq_none (hlenient : r.options.failOnUnresolvable = false)
    {tree : Mapping} {out : Edited Unresolved Mapping} (h : r.ReturnsTree tree out) :
    out.failure = none := by
  obtain ⟨hout, depth, rfl⟩ := h
  by_contra hfail
  obtain ⟨e, he⟩ := Option.ne_none_iff_exists'.mp hfail
  rcases resolveAllBy_failure (fun _ _ _ => resolveText_error) he with ⟨hstrict, -⟩ | rfl
  · rw [hlenient] at hstrict
    contradiction
  · exact hout he

/-- **A lenient run over a text that returns** returns no error. -/
theorem ReturnsText.eq_ok (hlenient : r.options.failOnUnresolvable = false) {text : String}
    {out : Except Unresolved Value} (h : r.ReturnsText text out) : ∃ v, out = .ok v := by
  obtain ⟨hout, depth, rfl⟩ := h
  cases hvalue : r.resolveScalarBy (resolveText Trail.admits r depth) text with
  | ok v => exact ⟨v, rfl⟩
  | error e =>
      rcases resolveScalarBy_error (fun _ _ _ => resolveText_error) hvalue with
        ⟨hstrict, -⟩ | rfl
      · rw [hlenient] at hstrict
        contradiction
      · exact absurd hvalue hout

/-- **A strict run over a tree that returns** met an unknown placeholder, or it returns
what the lenient one returns. -/
theorem ReturnsTree.of_strict {tree : Mapping} {out : Edited Unresolved Mapping}
    (h : (r.setStrict true).ReturnsTree tree out) :
    (∃ e, IsMissing e ∧ out.failure = some e) ∨ (r.setStrict false).ReturnsTree tree out := by
  obtain ⟨hout, depth, rfl⟩ := h
  exact (resolveAll_strict_agree r depth tree).imp_right fun hsame => ⟨hout, depth, hsame.symm⟩

/-- **A strict run over a text that returns** met an unknown placeholder, or it returns
what the lenient one returns. -/
theorem ReturnsText.of_strict {text : String} {out : Except Unresolved Value}
    (h : (r.setStrict true).ReturnsText text out) :
    (∃ e, IsMissing e ∧ out = .error e) ∨ (r.setStrict false).ReturnsText text out := by
  obtain ⟨hout, depth, rfl⟩ := h
  exact (resolveScalar_strict_agree r depth text).imp_right fun hsame =>
    ⟨hout, depth, hsame.symm⟩

end Resolver

end LayeredConfig
