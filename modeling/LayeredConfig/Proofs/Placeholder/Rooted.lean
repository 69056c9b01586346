import LayeredConfig.Proofs.Path.Steps
import LayeredConfig.Proofs.Resolve.Lookup
import Mathlib.Data.List.Infix

/-!
# Placeholders that name a path of keys

A key that a placeholder's path goes through is free of more than the marks of paths.  The
marks of placeholders would end the placeholder too early, and `:-` would start a fallback.
Such a key is called nameable.  The root notation of a path of nameable keys is then the
whole key of a placeholder: it is inert (`inert_rooted`), no fallback is cut off it
(`splitDefault_rooted`), it is read as the path (`read?_rooted_of_nameable`), and a layer is
asked for the node there (`find?_rooted`).
-/

namespace LayeredConfig.Placeholder

/-- A key that the path of a placeholder can go through: it is not empty, and it holds no
mark of paths or placeholders and no start of a fallback. -/
structure Nameable (name : String) : Prop where
  nonempty : name ≠ ""
  unmarked : ∀ c ∈ name.toList, c ∉ ['/', '.', '[', ']', '$', '{', '}']
  unsplit : ¬ [':', '-'] <:+: name.toList

-- again the characters of the key are gone through, not all characters that there are
instance (name : String) : Decidable (Nameable name) :=
  have : Decidable (∀ c ∈ name.toList, c ∉ ['/', '.', '[', ']', '$', '{', '}']) :=
    List.decidableBAll _ name.toList
  decidable_of_iff (name ≠ "" ∧ (∀ c ∈ name.toList, c ∉ ['/', '.', '[', ']', '$', '{', '}']) ∧
    ¬ [':', '-'] <:+: name.toList) ⟨fun ⟨hne, hmarks, hsplit⟩ => ⟨hne, hmarks, hsplit⟩,
      fun h => ⟨h.nonempty, h.unmarked, h.unsplit⟩⟩

theorem Nameable.spellable {name : String} (h : Nameable name) : Path.Spellable name := by
  refine ⟨h.nonempty, fun c hc hmark => h.unmarked c hc ?_⟩
  exact (List.prefix_append ['/', '.', '[', ']'] ['$', '{', '}']).subset hmark

/-- What stands in front of a fallback is not cut, if the fallback does not start in it or at
its end. -/
theorem cutDefault_append {cs rest : List Char} (hcs : ¬ [':', '-'] <:+: cs)
    (hrest : rest.head? ≠ some '-') :
    cutDefault (cs ++ rest) = (cs ++ (cutDefault rest).1, (cutDefault rest).2) := by
  induction cs with
  | nil => rfl
  | cons c cs ih =>
      have htail : ¬ [':', '-'] <:+: cs := fun h => hcs (h.trans (List.suffix_cons c cs).isInfix)
      have hcut : ∀ behind, c :: (cs ++ rest) ≠ ':' :: '-' :: behind := by
        rintro behind heq
        obtain ⟨rfl, hbehind⟩ := List.cons.inj heq
        cases cs with
        | nil => exact hrest (by rw [List.nil_append] at hbehind; rw [hbehind]; rfl)
        | cons d cs =>
            obtain ⟨rfl, -⟩ := List.cons.inj hbehind
            exact hcs ⟨[], cs, rfl⟩
      rw [List.cons_append, cutDefault, ih htail]
      · rfl
      · exact fun behind hc hbehind => hcut behind (by rw [hc, hbehind])

/-- A path of nameable keys is no fallback's start. -/
theorem cutDefault_steps {names : List String} (hnames : ∀ name ∈ names, Nameable name) :
    cutDefault ((Path.ofKeys names).flatMap Path.rootedStep) =
      ((Path.ofKeys names).flatMap Path.rootedStep, none) := by
  induction names with
  | nil => rfl
  | cons name names ih =>
      have hrest := ih fun n hn => hnames n (List.mem_cons_of_mem _ hn)
      have hhead : ((Path.ofKeys names).flatMap Path.rootedStep).head? ≠ some '-' := by
        cases names with
        | nil => exact nofun
        | cons next names => exact fun h => absurd (Option.some.inj h) (by decide)
      have hkey : ¬ [':', '-'] <:+: '/' :: name.toList := by
        intro h
        rcases List.infix_cons_iff.mp h with hfront | hinside
        · exact absurd (List.cons_prefix_cons.mp hfront).1 (by decide)
        · exact (hnames name List.mem_cons_self).unsplit hinside
      have hsplit : (Path.ofKeys (name :: names)).flatMap Path.rootedStep =
          ('/' :: name.toList) ++ (Path.ofKeys names).flatMap Path.rootedStep := rfl
      rw [hsplit, cutDefault_append hkey hhead, hrest]

section Rooted

variable {name : String} {names : List String} (hnames : ∀ n ∈ name :: names, Nameable n)

include hnames

/-- **A placeholder of nameable keys has no fallback.** -/
theorem splitDefault_rooted :
    splitDefault (Path.ofKeys (name :: names)).rooted =
      ((Path.ofKeys (name :: names)).rooted, none) := by
  have hrooted : (Path.ofKeys (name :: names)).rooted =
      String.ofList ((Path.ofKeys (name :: names)).flatMap Path.rootedStep) := rfl
  rw [splitDefault, hrooted, String.toList_ofList, cutDefault_steps hnames]
  rfl

theorem inert_rooted : Inert (Path.ofKeys (name :: names)).rooted.toList := by
  rw [Path.toList_rooted_ofKeys_cons]
  refine ⟨List.cons_ne_nil _ _, fun c hc => isKeyChar_iff.mpr ?_⟩
  have hmarks : ∀ n ∈ name :: names, ∀ c ∈ '/' :: n.toList, c ≠ '$' ∧ c ≠ '{' ∧ c ≠ '}' := by
    intro n hn c hc
    rcases List.mem_cons.mp hc with rfl | hc
    · decide
    · have hfree := (hnames n hn).unmarked c hc
      simp only [List.mem_cons, List.not_mem_nil, or_false, not_or] at hfree
      exact hfree.2.2.2.2
  have hsteps : '/' :: (name.toList ++ (Path.ofKeys names).flatMap Path.rootedStep) =
      (name :: names).flatMap fun n => '/' :: n.toList := by
    rw [List.flatMap_cons, Path.ofKeys, List.flatMap_map]
    rfl
  rw [hsteps] at hc
  obtain ⟨n, hn, hc⟩ := List.mem_flatMap.mp hc
  exact hmarks n hn c hc

theorem pathText_rooted :
    pathText (Path.ofKeys (name :: names)).rooted = (Path.ofKeys (name :: names)).rooted :=
  congrArg Prod.fst (splitDefault_rooted hnames)

theorem read?_rooted_of_nameable :
    Path.read? (Path.ofKeys (name :: names)).rooted = some (Path.ofKeys (name :: names)) :=
  Path.read?_rooted (List.forall_mem_map.mpr fun n hn => (hnames n hn).spellable)

/-- What a layer holds at the path of a placeholder. -/
theorem find?_rooted (layer : Layer) :
    layer.find? (pathText (Path.ofKeys (name :: names)).rooted) =
      Value.nonNull? (layer.data.get? (Path.ofKeys (name :: names))) := by
  rw [pathText_rooted hnames, Layer.find?, Mapping.find?, read?_rooted_of_nameable hnames,
    Option.bind_some]

end Rooted

end LayeredConfig.Placeholder
