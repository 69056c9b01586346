import LayeredConfig.Proofs.Placeholder.Nest
import LayeredConfig.Proofs.Resolve.Ending
import LayeredConfig.Proofs.Resolve.Flat

/-!
# Nested placeholders collapse from the inside out

A placeholder may stand inside the key of another one.  Before a text is resolved its nested
keys are collapsed: round after round, the placeholders that stand inside another one and
have none inside themselves give way to the texts of their values.  What this amounts to is
said by recursion on the nest that the text is written from (`Nest.collapsed`), and the
rounds compute it, because

* a round puts in one key after the other (`collapse_succ`), and putting one in neither
  changes what the nest comes to nor adds a key to it (`putIn_text`, `foldlM_putIn`);
* a round takes away one level, so there are rounds enough for a placeholder inside
  `collapseLimit` others (`collapse_text`).

Replacement knows nothing of levels.  It changes every placeholder with the key, so an
outermost one must not have the key of an inner one.  Then a nested text resolves as if
the outcome of collapsing had been written in the first place (`nested_placeholders_collapse`).
-/

namespace LayeredConfig

open Placeholder

section Rounds

variable (value : String → Except Unresolved Value)

/-- The value of one key put into a text.  A placeholder that stands for itself stays. -/
def putIn (text key : String) : Except Unresolved String := do
  let v ← value (wrap key)
  if v.asString? = some (wrap key) then .ok text
  else .ok (substitute key v.toText text)

/-- One round: the values of all nested keys put in, one after the other. -/
def collapseRound (text : String) : Except Unresolved String :=
  (nestedKeys text).eraseDups.foldlM (putIn value) text

/-- The text that takes the place of a key's placeholder inside another one. -/
def keyText (key : List Char) : List Char :=
  match value (wrap (String.ofList key)) with
  | .ok v => v.toText.toList
  | .error _ => wrapChars key

/-- The placeholder of a key resolves to a value whose text can stand inside a key. -/
def Settles (key : List Char) : Prop :=
  ∃ v, value (wrap (String.ofList key)) = .ok v ∧ ∀ c ∈ v.toText.toList, isKeyChar c = true

variable {value}

/-- **Collapsing goes on round after round.**  Where nothing is nested, or a round changes
nothing, further rounds change nothing either. -/
theorem collapse_succ (rounds : Nat) (text : String) :
    collapse value (rounds + 1) text = collapseRound value text >>= collapse value rounds := by
  by_cases hnested : (nestedKeys text).eraseDups = []
  · have hround : collapseRound value text = .ok text := by rw [collapseRound, hnested]; rfl
    have hrest : collapse value rounds text = .ok text := by
      cases rounds with
      | zero => rfl
      | succ rounds => simp [collapse, hnested]
    rw [hround, collapse, hnested]
    exact hrest.symm
  · have hunfold : ∀ rounds, collapse value (rounds + 1) text = collapseRound value text >>=
        fun next => if next = text then .ok text else collapse value rounds next := by
      intro rounds
      rw [collapse, if_neg (by simpa using hnested)]
      rfl
    rw [hunfold]
    cases hround : collapseRound value text with
    | error e => rfl
    | ok next =>
        by_cases hsame : next = text
        · subst hsame
          have hrest : collapse value rounds next = .ok next := by
            cases rounds with
            | zero => rfl
            | succ rounds =>
                rw [hunfold, hround]
                exact if_pos rfl
          exact (if_pos rfl).trans hrest.symm
        · exact if_neg hsame

/-- Collapsing keeps what every replacement keeps. -/
theorem collapse_keeps {P : String → Prop}
    (hput : ∀ key new text, P text → P (substitute key new text)) {rounds : Nat}
    {text out : String} (h : P text) (hout : collapse value rounds text = .ok out) : P out := by
  induction rounds generalizing text with
  | zero => exact Except.ok.inj hout ▸ h
  | succ rounds ih =>
      rw [collapse_succ] at hout
      obtain ⟨next, hround, hrest⟩ := bind_ok hout
      refine ih (foldlM_keeps (I := fun _ => P) (fun key _ text text' h hkey => ?_) h hround) hrest
      obtain ⟨v, -, hstep⟩ := bind_ok hkey
      split at hstep
      · exact Except.ok.inj hstep ▸ h
      · exact Except.ok.inj hstep ▸ hput key v.toText text h

theorem Settles.keyText_plain {key : List Char} (h : Settles value key) :
    ∀ c ∈ keyText value key, isKeyChar c = true := by
  obtain ⟨v, hv, hplain⟩ := h
  simpa [keyText, hv] using hplain

/-- The text that takes the place of a key's placeholder, as a literal. -/
def Settles.literal {key : List Char} (h : Settles value key) : Literal :=
  ⟨keyText value key, h.keyText_plain⟩

/-- **Putting in a value** fills in the nest. -/
theorem putIn_text {key : String} (hkey : Inert key.toList) (h : Settles value key.toList)
    (n : Nest) : putIn value n.text key = .ok (n.fill key.toList h.literal).text := by
  obtain ⟨v, hv, hplain⟩ := id h
  rw [String.ofList_toList] at hv
  have hstays : v.asString? ≠ some (wrap key) := by
    intro hstr
    have hdollar : '$' ∈ v.toText.toList := by
      cases v with
      | str text =>
          obtain rfl : text = wrap key := Option.some.inj hstr
          simp [Value.toText, wrap, wrapChars]
      | _ => cases hstr
    exact absurd (hplain '$' hdollar) (by decide)
  have hnew : String.ofList h.literal.chars = v.toText := by
    simp [Settles.literal, keyText, hv]
  have hsubstitute := Nest.substitute_text hkey h.literal n
  rw [String.ofList_toList, hnew] at hsubstitute
  rw [putIn, hv, ← hsubstitute]
  exact if_neg hstays

/-- **Putting in several values**, none of them for an outermost placeholder, leads to a
nest that comes to the same and has lost the levels of their placeholders. -/
theorem foldlM_putIn {names : List String} (n : Nest)
    (hnames : ∀ name ∈ names, Inert name.toList ∧ Settles value name.toList ∧
      name.toList ∉ n.outerKeys (keyText value)) :
    ∃ m : Nest, names.foldlM (putIn value) n.text = .ok m.text ∧
      m.collapsed (keyText value) = n.collapsed (keyText value) ∧
      m.outerKeys (keyText value) = n.outerKeys (keyText value) ∧
      m.innerKeys (keyText value) ⊆ n.innerKeys (keyText value) ∧
      m.levels ≤ n.levelsWithout (names.map String.toList) := by
  induction names generalizing n with
  | nil => exact ⟨n, rfl, rfl, rfl, fun _ => id, Nat.le_of_eq n.levelsWithout_nil.symm⟩
  | cons name rest ih =>
      obtain ⟨hinert, hsettles, houter⟩ := hnames name List.mem_cons_self
      have hrest : ∀ k ∈ rest.map String.toList, ∀ c ∈ k, isKeyChar c = true := by
        intro k hk
        obtain ⟨other, hother, rfl⟩ := List.mem_map.mp hk
        exact (hnames other (List.mem_cons_of_mem _ hother)).1.2
      have hnew : keyText value name.toList = hsettles.literal.chars := rfl
      obtain ⟨hcollapsed, hkeys⟩ := Nest.outer_fill hinert.2 hnew houter
      have hinner := Nest.innerKeys_fill_subset (n := n) hinert.2 hnew
      have hlevels := Nest.levelsWithout_fill_le (n := n) hrest name.toList hsettles.literal
      obtain ⟨m, hfold, hcollapsed', hkeys', hinner', hlevels'⟩ :=
        ih (n.fill name.toList hsettles.literal) fun other hother =>
          hkeys ▸ hnames other (List.mem_cons_of_mem _ hother)
      refine ⟨m, ?_, hcollapsed'.trans hcollapsed, hkeys'.trans hkeys,
        fun _ hk => hinner (hinner' hk), Nat.le_trans hlevels' hlevels⟩
      rw [List.foldlM_cons, putIn_text hinert hsettles]
      exact hfold

/-- **The rounds compute what the nest comes to.**  By induction on the rounds: each puts in
the nested keys, after which there is one level less. -/
theorem collapse_text {n : Nest} {rounds : Nat} (hlevels : n.levels ≤ rounds + 1)
    (hempty : [] ∉ n.innerKeys (keyText value))
    (hsettled : ∀ key ∈ n.innerKeys (keyText value), Settles value key)
    (houter : ∀ key ∈ n.outerKeys (keyText value), key ∉ n.innerKeys (keyText value)) :
    ∃ m : Nest, m.levels ≤ 1 ∧ m.chars = n.collapsed (keyText value) ∧
      collapse value rounds n.text = .ok m.text := by
  induction rounds generalizing n with
  | zero => exact ⟨n, hlevels, (Nest.collapsed_of_levels_le_one hlevels _).symm, rfl⟩
  | succ rounds ih =>
      have hkeys : ∀ name ∈ (nestedKeys n.text).eraseDups, Inert name.toList ∧
          Settles value name.toList ∧ name.toList ∉ n.outerKeys (keyText value) := by
        intro name hname
        rw [List.mem_eraseDups, Nest.nestedKeys_text] at hname
        obtain ⟨key, hkey, rfl⟩ := List.mem_map.mp hname
        obtain ⟨hinert, hmem⟩ := n.nested_subset_innerKeys (keyText value) key hkey
        rw [String.toList_ofList]
        exact ⟨hinert, hsettled key hmem, fun hout => houter key hout hmem⟩
      obtain ⟨m, hfold, hcollapsed, houterKeys, hinner, hless⟩ := foldlM_putIn n hkeys
      have hnested : ∀ key ∈ n.nested,
          key ∈ (nestedKeys n.text).eraseDups.map String.toList := by
        intro key hkey
        refine List.mem_map.mpr ⟨String.ofList key, ?_, String.toList_ofList⟩
        rw [List.mem_eraseDups, Nest.nestedKeys_text]
        exact List.mem_map.mpr ⟨key, hkey, rfl⟩
      have hle := Nest.levelsWithout_le hempty hnested hlevels
      obtain ⟨m', hlevels', hchars, hcollapse⟩ := ih (Nat.le_trans hless hle)
        (fun h => hempty (hinner h)) (fun key h => hsettled key (hinner h))
        (fun key hout h => houter key (houterKeys ▸ hout) (hinner h))
      refine ⟨m', hlevels', hchars.trans hcollapsed, ?_⟩
      rw [collapse_succ, collapseRound, hfold]
      exact hcollapse

end Rounds

namespace Resolver

/-- A text whose nested keys collapse resolves as the text that they collapse to. -/
theorem resolveLevel_of_collapse {r : Resolver} {admits : Trail → String → Bool}
    {deeper : TextResolution} {trail : Trail} {text collapsed : String}
    (h : collapse (throughPasses (deeper trail) r.passes) collapseLimit text = .ok collapsed)
    (hflat : nestedKeys collapsed = []) (pass : Pass) :
    r.resolveLevel admits deeper trail pass text =
      r.resolveLevel admits deeper trail pass collapsed := by
  simp only [resolveLevel, h, collapse_of_nestedKeys_eq_nil hflat]

/-- A placeholder with a value that holds none settles on that value, if its text can stand
inside a key. -/
theorem settles_of_find? {r : Resolver} {pass : Pass} (hr : r.passes = [pass])
    (hkeys : r.options.keyResolution = false) {key : String} (hkey : Inert key.toList)
    {found : Value} (hfound : pass.find? key = some found)
    (hplain : ∀ text ∈ found.texts, contains text = false)
    (htext : ∀ c ∈ found.toText.toList, isKeyChar c = true) :
    Settles r.resolveScalar key.toList ∧
      keyText r.resolveScalar key.toList = found.toText.toList := by
  have hvalue : r.resolveScalar (wrap key) = .ok found := by
    rw [resolveScalar_wrap hr hkey hfound, expand_of_plain hkeys hplain]
  refine ⟨⟨found, ?_, htext⟩, ?_⟩
  · rw [String.ofList_toList, hvalue]
  · rw [keyText, String.ofList_toList, hvalue]

/-- Braces without a key are no placeholder, so they stay. -/
theorem not_settles_nil {r : Resolver} {pass : Pass} (hr : r.passes = [pass]) :
    ¬ Settles r.resolveScalar [] := by
  rintro ⟨v, hv, hplain⟩
  have hbraces : r.resolveScalar (wrap (String.ofList [])) = .ok (.str (wrap "")) :=
    resolveScalar_of_plain hr rfl
  obtain rfl : Value.str (wrap "") = v := Except.ok.inj (hbraces.symm.trans hv)
  exact absurd (hplain '$' (by simp [Value.toText, wrap, wrapChars])) (by decide)

end Resolver

/-- **Nested placeholders collapse from the inside out.**  Let no placeholder of a nest stand
inside more than `collapseLimit` others, let every one that stands inside another resolve,
once those inside it are replaced, to a value whose text can stand in a key, and let no
outermost one then have the key of an inner one.  Then the text resolves as if the texts of
the inner placeholders had been written in their place. -/
theorem nested_placeholders_collapse (options : ResolverOptions) (layer : Layer) (n : Nest)
    (hlevels : n.levels ≤ collapseLimit + 1) :
    let r : Resolver := ⟨[layer], options⟩
    (∀ key ∈ n.innerKeys (keyText r.resolveScalar), Settles r.resolveScalar key) →
    (∀ key ∈ n.outerKeys (keyText r.resolveScalar),
      key ∉ n.innerKeys (keyText r.resolveScalar)) →
    r.resolveScalar n.text =
      r.resolveScalar (String.ofList (n.collapsed (keyText r.resolveScalar))) := by
  intro r hinner houter
  have hr : r.passes = [⟨layer, true⟩] := rfl
  have hempty : [] ∉ n.innerKeys (keyText r.resolveScalar) :=
    fun h => Resolver.not_settles_nil hr (hinner _ h)
  obtain ⟨m, hm, hchars, hcollapse⟩ := collapse_text hlevels hempty hinner houter
  have hflat : nestedKeys m.text = [] := by
    rw [Nest.nestedKeys_text, Nest.nested_of_levels_le_one hm]
    rfl
  have hvalue : throughPasses (r.auditedText []) r.passes = r.resolveScalar := by
    funext text
    rw [Resolver.resolveScalar_eq_auditedText hr, hr, throughPasses_singleton]
  have hcollapsed : String.ofList (n.collapsed (keyText r.resolveScalar)) = m.text := by
    rw [← hchars, Nest.text]
  rw [hcollapsed, Resolver.resolveScalar_eq_auditedText hr,
    Resolver.resolveScalar_eq_auditedText hr, Resolver.auditedText_eq hr Trail.orderly_nil,
    Resolver.auditedText_eq hr Trail.orderly_nil]
  exact Resolver.resolveLevel_of_collapse (hvalue ▸ hcollapse) hflat _

/-- Hosts by zone and zones by environment, but no environment. -/
def zonedLayer : Layer :=
  ⟨"zoned", [("zone", .map [("prod", .str "eu")]), ("hosts", .map [("eu", .int 7)])]⟩

/-- The zone of the environment, which falls back on `prod`. -/
def zoneNest : Nest :=
  .literal (.ofText "/zone/" (by decide)) <|
    .hole (.literal (.ofText "/env:-prod" (by decide)) .nil) .nil

/-- The host in that zone. -/
def hostNest : Nest :=
  .literal (.ofText "host " (by decide)) <|
    .hole (.literal (.ofText "/hosts/" (by decide)) <| .hole zoneNest .nil) .nil

/-- Three levels collapse to one, through a fallback and a value. -/
theorem host_placeholder_collapses :
    let r : Resolver := ⟨[zonedLayer], ⟨true, false, false⟩⟩
    hostNest.levels ≤ collapseLimit + 1 ∧
      (∀ key ∈ hostNest.innerKeys (keyText r.resolveScalar), Settles r.resolveScalar key) ∧
      (∀ key ∈ hostNest.outerKeys (keyText r.resolveScalar),
        key ∉ hostNest.innerKeys (keyText r.resolveScalar)) ∧
      r.resolveScalar "host ${/hosts/${/zone/${/env:-prod}}}" =
        r.resolveScalar "host ${/hosts/eu}" := by
  intro r
  have hfallback : (Pass.mk zonedLayer true).find? "/env:-prod" = some (.str "prod") := rfl
  have hfound : (Pass.mk zonedLayer true).find? "/zone/prod" = some (.str "eu") := rfl
  obtain ⟨hprod, henv⟩ : Settles r.resolveScalar "/env:-prod".toList ∧
      keyText r.resolveScalar "/env:-prod".toList = "prod".toList :=
    Resolver.settles_of_find? rfl rfl (by decide) hfallback (by decide)
      (List.all_eq_true.mp (by decide))
  obtain ⟨heu, hzone⟩ : Settles r.resolveScalar "/zone/prod".toList ∧
      keyText r.resolveScalar "/zone/prod".toList = "eu".toList :=
    Resolver.settles_of_find? rfl rfl (by decide) hfound (by decide)
      (List.all_eq_true.mp (by decide))
  have hzoneKey : zoneNest.inlined (keyText r.resolveScalar) = "/zone/prod".toList := by
    change "/zone/".toList ++ (keyText r.resolveScalar "/env:-prod".toList ++ []) = _
    rw [henv]
    decide
  have hhostKey : Nest.inlined (keyText r.resolveScalar)
      (.literal (.ofText "/hosts/" (by decide)) <| .hole zoneNest .nil) = "/hosts/eu".toList := by
    change "/hosts/".toList ++ (keyText r.resolveScalar (zoneNest.inlined _) ++ []) = _
    rw [hzoneKey, hzone]
    decide
  have hlevels : hostNest.levels ≤ collapseLimit + 1 := by decide
  have hinnerKeys : hostNest.innerKeys (keyText r.resolveScalar) =
      ["/zone/prod".toList, "/env:-prod".toList] := by
    change [zoneNest.inlined _, "/env:-prod".toList] = _
    rw [hzoneKey]
  have houterKeys : hostNest.outerKeys (keyText r.resolveScalar) = ["/hosts/eu".toList] :=
    congrArg (fun key => [key]) hhostKey
  have hinner : ∀ key ∈ hostNest.innerKeys (keyText r.resolveScalar),
      Settles r.resolveScalar key := by
    rw [hinnerKeys, List.forall_mem_cons, List.forall_mem_singleton]
    exact ⟨heu, hprod⟩
  have houter : ∀ key ∈ hostNest.outerKeys (keyText r.resolveScalar),
      key ∉ hostNest.innerKeys (keyText r.resolveScalar) := by
    rw [houterKeys, hinnerKeys]
    decide
  have htext : hostNest.text = "host ${/hosts/${/zone/${/env:-prod}}}" := rfl
  have hcollapsed : String.ofList (hostNest.collapsed (keyText r.resolveScalar)) =
      "host ${/hosts/eu}" := by
    change String.ofList ("host ".toList ++ (wrapChars (Nest.inlined _ _) ++ [])) = _
    rw [hhostKey]
    decide
  have hsame := nested_placeholders_collapse ⟨true, false, false⟩ zonedLayer hostNest hlevels
    hinner houter
  rw [htext, hcollapsed] at hsame
  exact ⟨hlevels, hinner, houter, hsame⟩

end LayeredConfig
