import LayeredConfig.Proofs.Placeholder.Rooted
import LayeredConfig.Proofs.Resolve.Leafwise
import LayeredConfig.Proofs.Tree.Write
import Mathlib.Data.Nat.ModEq

/-!
# Cycles of placeholders

An entry may be the placeholder of another one, that one of a third, and so on until the last
one is the placeholder of the first.  Expansion goes round such a cycle from entry to entry and
puts the path of each on the trail.  There are two cut-offs.  After as many steps as the cycle
has entries the next path is on the trail already, and after `trailLimit` steps the trail is
full.  Whichever comes first, the text that was found there is put in as it is, and that text
is the placeholder of the entry behind.

* `Mapping.Cycle.admits_iff`: after how many steps the next path is not admitted;
* `Mapping.Cycle.auditedText_steps`: what becomes of the entry on the way, by induction on the
  steps that are left;
* `cycles_are_capped`: what a whole cycle resolves to, next to anything else.
-/

namespace LayeredConfig

open Placeholder

/-- The placeholder that names an entry at the top of a tree. -/
def Placeholder.wrapEntry (name : String) : String :=
  wrap (Path.ofKeys [name]).rooted

/-- Entries at the top of a tree of which each is the placeholder of the next one, and the
last one is that of the first. -/
structure Mapping.Cycle (tree : Mapping) (n : Nat) (name : Nat → String) : Prop where
  pos : 0 < n
  nameable : ∀ i < n, Nameable (name i)
  distinct : ∀ i < n, ∀ j < n, name i = name j → i = j
  entry : ∀ i < n, tree.lookup (name i) = some (.str (wrapEntry (name ((i + 1) % n))))

/-- The entry that is reached after some steps round a cycle. -/
def roundName (n : Nat) (name : Nat → String) (steps : Nat) : String :=
  name (steps % n)

/-- The path of the entry that is reached after some steps round a cycle. -/
def roundPath (n : Nat) (name : Nat → String) (steps : Nat) : String :=
  (Path.ofKeys [roundName n name steps]).rooted

/-- The trail after `steps` steps round a cycle from `start` on. -/
def roundTrail (n : Nat) (name : Nat → String) (start steps : Nat) : Trail :=
  (List.range steps).map fun k => roundPath n name (start + k)

theorem roundTrail_succ (n : Nat) (name : Nat → String) (start steps : Nat) :
    roundTrail n name start (steps + 1) =
      roundTrail n name start steps ++ [roundPath n name (start + steps)] := by
  rw [roundTrail, List.range_succ, List.map_append]
  rfl

/-- The node at a path of one key is the entry. -/
theorem Mapping.get?_ofKeys_singleton (tree : Mapping) (name : String) :
    tree.get? (Path.ofKeys [name]) = tree.lookup name := by
  rw [get?_ofKeys_cons, Path.ofKeys, List.map_singleton, Value.at?]
  cases tree.lookup name <;> rfl

/-- The entries of a tree that are not in a cycle. -/
def Mapping.offCycle (tree : Mapping) (n : Nat) (name : Nat → String) : Mapping :=
  tree.filter fun entry => ∀ i < n, entry.1 ≠ name i

namespace Mapping.Cycle

variable {tree : Mapping} {n : Nat} {name : Nat → String} (h : tree.Cycle n name)

include h

/-! ## Going round -/

theorem nameable_round (steps : Nat) : ∀ m ∈ [roundName n name steps], Nameable m := by
  intro m hm
  rw [List.mem_singleton.mp hm]
  exact h.nameable _ (Nat.mod_lt _ h.pos)

/-- Every entry on the way is the placeholder of the next one. -/
theorem lookup_round (steps : Nat) :
    tree.lookup (roundName n name steps) =
      some (.str (wrap (roundPath n name (steps + 1)))) := by
  have hentry := h.entry (steps % n) (Nat.mod_lt _ h.pos)
  rwa [Nat.mod_add_mod] at hentry

theorem pathText_round (steps : Nat) :
    pathText (roundPath n name steps) = roundPath n name steps :=
  pathText_rooted (h.nameable_round steps)

theorem inert_round (steps : Nat) : Inert (roundPath n name steps).toList :=
  inert_rooted (h.nameable_round steps)

/-- What a pass over the tree finds on the way. -/
theorem find?_round {pass : Pass} (hdata : pass.layer.data = tree) (steps : Nat) :
    pass.find? (roundPath n name steps) =
      some (.str (wrap (roundPath n name (steps + 1)))) := by
  refine Pass.find?_of_layer ?_
  rw [roundPath, find?_rooted (h.nameable_round steps), hdata, Mapping.get?_ofKeys_singleton,
    h.lookup_round steps]
  rfl

/-- Within one round no path comes twice. -/
theorem roundPath_inj {start a b : Nat} (ha : a < n) (hb : b < n)
    (heq : roundPath n name (start + a) = roundPath n name (start + b)) : a = b := by
  have hread := congrArg Path.read? heq
  rw [roundPath, roundPath, read?_rooted_of_nameable (h.nameable_round _),
    read?_rooted_of_nameable (h.nameable_round _)] at hread
  have hname : roundName n name (start + a) = roundName n name (start + b) := by
    simpa [Path.ofKeys] using hread
  have hmod : start + a ≡ start + b [MOD n] :=
    h.distinct _ (Nat.mod_lt _ h.pos) _ (Nat.mod_lt _ h.pos) hname
  exact (Nat.ModEq.add_left_cancel' start hmod).eq_of_lt_of_lt ha hb

/-- Within one round the trail is orderly, as long as it has room. -/
theorem orderly_roundTrail {steps : Nat} (hround : steps ≤ n) (hroom : steps ≤ trailLimit)
    (start : Nat) : (roundTrail n name start steps).Orderly := by
  refine ⟨?_, ?_⟩
  · rw [roundTrail, List.length_map, List.length_range]
    exact hroom
  · refine List.Nodup.map_on (fun a ha b hb heq => ?_) List.nodup_range
    have ha' : a < n := (List.mem_range.mp ha).trans_le hround
    have hb' : b < n := (List.mem_range.mp hb).trans_le hround
    exact h.roundPath_inj ha' hb' heq

/-- **The two cut-offs.**  Within one round the next path is admitted as long as the round is
not finished and the trail is not full. -/
theorem admits_iff {steps : Nat} (hround : steps ≤ n) (start : Nat) :
    Trail.admits (roundTrail n name start steps) (roundPath n name (start + steps)) = true ↔
      steps < min n trailLimit := by
  have hlength : (roundTrail n name start steps).length = steps := by
    rw [roundTrail, List.length_map, List.length_range]
  have hnew : roundPath n name (start + steps) ∉ roundTrail n name start steps ↔ steps < n := by
    rw [roundTrail, List.mem_map]
    constructor
    · -- behind a whole round the path is that of the start
      intro hnot
      refine hround.lt_of_ne fun heq => hnot ⟨0, List.mem_range.mpr (heq ▸ h.pos), ?_⟩
      rw [heq, roundPath, roundPath, roundName, roundName, Nat.add_mod_right, Nat.add_zero]
    · rintro hlt ⟨k, hk, heq⟩
      have hk' : k < steps := List.mem_range.mp hk
      have hsame := h.roundPath_inj (hk'.trans hlt) hlt heq
      omega
  rw [Trail.admits_iff, hlength, hnew, Nat.lt_min, and_comm]

/-! ## Resolving -/

variable {r : Resolver} {pass : Pass}

/-- **An entry on the way** becomes the placeholder behind the cut-off, by induction on the
steps that are left to it. -/
theorem auditedText_steps (hr : r.passes = [pass]) (hdata : pass.layer.data = tree)
    (hnested : r.options.nestedResolution = true) (start : Nat) {steps left : Nat}
    (hleft : steps + left = min n trailLimit) :
    r.auditedText (roundTrail n name start steps) pass (wrap (roundPath n name (start + steps))) =
      .ok (.str (wrap (roundPath n name (start + min n trailLimit + 1)))) := by
  induction left generalizing steps with
  | zero =>
      have hsteps : steps = min n trailLimit := hleft
      have hround : steps ≤ n := hsteps ▸ Nat.min_le_left _ _
      have hroom : steps ≤ trailLimit := hsteps ▸ Nat.min_le_right _ _
      have hfull : Trail.admits (roundTrail n name start steps)
          (pathText (roundPath n name (start + steps))) = false := by
        rw [h.pathText_round, Bool.eq_false_iff]
        intro hadmits
        exact absurd ((h.admits_iff hround start).mp hadmits) (by omega)
      rw [Resolver.auditedText_eq hr (h.orderly_roundTrail hround hroom start),
        Resolver.resolveLevel_wrap (h.inert_round _) (h.find?_round hdata _),
        Resolver.expand_of_not_admits hfull, hsteps]
  | succ left ih =>
      have hlt : steps < min n trailLimit := by omega
      obtain ⟨hround, hroom⟩ := Nat.lt_min.mp hlt
      have hadmits : Trail.admits (roundTrail n name start steps)
          (pathText (roundPath n name (start + steps))) = true := by
        rw [h.pathText_round]
        exact (h.admits_iff hround.le start).mpr hlt
      have hholds : (r.options.nestedResolution &&
          contains (wrap (roundPath n name (start + steps + 1)))) = true := by
        rw [hnested, contains_wrap (h.inert_round _)]
        rfl
      have hnext := @ih (steps + 1) (by omega)
      rw [roundTrail_succ, ← Nat.add_assoc] at hnext
      rw [Resolver.auditedText_eq hr (h.orderly_roundTrail hround.le hroom.le start),
        Resolver.resolveLevel_wrap (h.inert_round _) (h.find?_round hdata _),
        Resolver.expand_str hadmits, if_pos hholds, h.pathText_round]
      exact hnext

/-- **An entry of a cycle**, looked up alone. -/
theorem resolveScalar_entry (hr : r.passes = [pass]) (hdata : pass.layer.data = tree)
    (hnested : r.options.nestedResolution = true) (i : Nat) :
    r.resolveScalar (wrapEntry (name ((i + 1) % n))) =
      .ok (.str (wrapEntry (name ((i + min n trailLimit + 2) % n)))) := by
  have hsteps := h.auditedText_steps hr hdata hnested (i + 1) (Nat.zero_add _)
  have hend : i + 1 + min n trailLimit + 1 = i + min n trailLimit + 2 := by omega
  rw [hend] at hsteps
  exact (Resolver.resolveScalar_eq_auditedText hr _).trans hsteps

/-- A text of the tree stands off the cycle, or it is an entry of it. -/
theorem text_cases (hkeys : tree.keys.Nodup) {text : String} (htext : text ∈ tree.texts) :
    text ∈ (tree.offCycle n name).texts ∨ ∃ i < n, text = wrapEntry (name ((i + 1) % n)) := by
  obtain ⟨entry, hmem, hin⟩ := mem_texts.mp htext
  by_cases hoff : ∀ i < n, entry.1 ≠ name i
  · exact Or.inl (mem_texts.mpr ⟨entry, List.mem_filter.mpr ⟨hmem, by simpa using hoff⟩, hin⟩)
  · push Not at hoff
    obtain ⟨i, hi, hname⟩ := hoff
    have hlookup : tree.lookup entry.1 = some entry.2 := lookup_of_mem hkeys hmem
    rw [hname, h.entry i hi] at hlookup
    rw [← Option.some.inj hlookup, Value.texts_str] at hin
    exact Or.inr ⟨i, hi, List.mem_singleton.mp hin⟩

end Mapping.Cycle

/-- **Cycles are capped.**  A tree that is resolved against itself resolves around any cycle at
its top, strictly if what is off the cycle does.  Every entry of the cycle becomes the
placeholder of an entry of the cycle: of the one that is reached in two steps and as many more
as the cycle has entries, or as the trail has places if those are fewer. -/
theorem cycles_are_capped {tree : Mapping} (hkeys : tree.keys.Nodup) {n : Nat}
    {name : Nat → String} (hcycle : tree.Cycle n name) (layerName : String) (strict : Bool) :
    let r : Resolver := ⟨[⟨layerName, tree⟩], ⟨true, strict, false⟩⟩
    (strict = true → (r.resolveAll (tree.offCycle n name)).failure = none) →
    ∃ out, r.resolveAll tree = .done out ∧ ∀ i < n, out.lookup (name i) =
      some (.str (wrapEntry (name ((i + min n trailLimit + 2) % n)))) := by
  intro r hoff
  have hr : r.passes = [⟨⟨layerName, tree⟩, true⟩] := rfl
  have hentry := fun i => hcycle.resolveScalar_entry (r := r) hr rfl rfl i
  have hresolves : ∀ text ∈ tree.texts, ∃ v, r.resolveScalar text = .ok v := by
    intro text htext
    cases hvalue : r.resolveScalar text with
    | ok v => exact ⟨v, rfl⟩
    | error e =>
        have hstrict : strict = true := (Resolver.resolveScalar_error hr hvalue).1
        rw [← hvalue]
        rcases hcycle.text_cases hkeys htext with hrest | ⟨i, -, rfl⟩
        · have hdone := Edited.eq_done (hoff hstrict)
          exact ((Resolver.resolveAll_eq_done_iff hr rfl _ _).mp hdone).1 text hrest
        · exact ⟨_, hentry i⟩
  refine ⟨_, Resolver.resolveAll_of_resolves hr rfl hresolves, fun i hi => ?_⟩
  have hnode : tree.get? (Path.ofKeys [name i]) =
      some (.str (wrapEntry (name ((i + 1) % n)))) := by
    rw [Mapping.get?_ofKeys_singleton, hcycle.entry i hi]
  have hbecomes := Mapping.get?_mapTextEntries (f := r.resolvedText) hnode
  rw [Mapping.get?_ofKeys_singleton, Value.mapText, Resolver.resolvedText, hentry i] at hbecomes
  exact hbecomes

/-- Two entries that name each other, and a plain one beside them. -/
def ringTree : Mapping :=
  [("a", .str "${/b}"), ("b", .str "${/a}"), ("c", .str "plain")]

/-- The names of the entries that name each other. -/
def ringName (i : Nat) : String :=
  if i = 0 then "a" else "b"

/-- Strictly each of the two becomes the placeholder that it was of. -/
theorem ringTree_is_capped :
    let r : Resolver := ⟨[⟨"self", ringTree⟩], ⟨true, true, false⟩⟩
    ringTree.Cycle 2 ringName ∧
      (r.resolveAll (ringTree.offCycle 2 ringName)).failure = none ∧
      ∃ out, r.resolveAll ringTree = .done out ∧
        out.lookup "a" = some (.str "${/a}") ∧ out.lookup "b" = some (.str "${/b}") := by
  intro r
  have hr : r.passes = [⟨⟨"self", ringTree⟩, true⟩] := rfl
  have hwrap : wrapEntry "a" = "${/a}" ∧ wrapEntry "b" = "${/b}" := by decide
  have hentry : ∀ i < 2, ringTree.lookup (ringName i) =
      some (.str (wrapEntry (ringName ((i + 1) % 2)))) := by
    intro i hi
    obtain rfl | rfl : i = 0 ∨ i = 1 := by omega
    · exact congrArg (fun text => some (Value.str text)) hwrap.2.symm
    · exact congrArg (fun text => some (Value.str text)) hwrap.1.symm
  have hcycle : ringTree.Cycle 2 ringName :=
    ⟨by decide, by decide, by decide, hentry⟩
  have hoff : (r.resolveAll (ringTree.offCycle 2 ringName)).failure = none := by
    have hrest : ringTree.offCycle 2 ringName = [("c", .str "plain")] := rfl
    have hplain : ∀ text ∈ Mapping.texts [("c", .str "plain")],
        ∃ v, r.resolveScalar text = .ok v := by
      intro text htext
      obtain rfl : text = "plain" := List.mem_singleton.mp htext
      exact ⟨_, Resolver.resolveScalar_of_plain hr (by decide)⟩
    rw [hrest, Resolver.resolveAll_of_resolves hr rfl hplain]
    rfl
  obtain ⟨out, hout, hcapped⟩ :=
    cycles_are_capped (by decide) hcycle "self" true fun _ => hoff
  refine ⟨hcycle, hoff, out, hout, ?_, ?_⟩
  · rw [← hwrap.1]
    exact hcapped 0 (by decide)
  · rw [← hwrap.2]
    exact hcapped 1 (by decide)

end LayeredConfig
