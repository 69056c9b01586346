import LayeredConfig.Proofs.Placeholder.Scanning

/-!
# Which references are anchored

Read as brackets, the `${` and `}` of a text are matched from left to right: a `}` closes the
latest `${` that is still open, and where none is open it closes nothing (`pairsFrom`).
Anchoring does not match them.  It goes from one `${` to the next, and at each counts depths in
what is left of the text.  Both come to the same references:

* the `${` at some height of the stack of open ones is matched in the rest of the text exactly
  if the rest closes as many of them (`matched_iff_closes`);
* so a `${` is matched, and neither a slash nor a closing brace follows it, exactly if it opens
  a relative reference (`anchorsAt_iff`).

A text is then a front and a number of stretches, each from the `${` of one such reference to
that of the next.  Anchoring keeps the front and what stands in a stretch behind the steps to
the parent, and writes the container that they lead to in their place
(`references_are_anchored`).
-/

namespace LayeredConfig.Placeholder

/-- The pairs of a `${` and the `}` that closes it, as places of a text that starts at a given
place, behind others of which some `${` are still open, the latest first. -/
def pairsFrom : Nat → List Nat → List Char → List (Nat × Nat)
  | place, unclosed, '$' :: '{' :: rest => pairsFrom (place + 2) (place :: unclosed) rest
  | place, latest :: unclosed, '}' :: rest =>
    (latest, place) :: pairsFrom (place + 1) unclosed rest
  | place, unclosed, _ :: rest => pairsFrom (place + 1) unclosed rest
  | _, _, [] => []

/-- The `${` at a place of the text is closed by some `}`. -/
def Matched (cs : List Char) (i : Nat) : Prop :=
  ∃ j, (i, j) ∈ pairsFrom 0 [] cs

/-- The `${` at a place of the text is closed, and followed neither by a slash nor by a closing
brace. -/
def AnchorsAt (cs : List Char) (i : Nat) : Prop :=
  Matched cs i ∧ cs[i + 2]? ≠ some '/' ∧ cs[i + 2]? ≠ some '}'

/-! ## Depths and stacks -/

/-- The places of the open `${`, the latest first, all of them in front of a place. -/
def Stacked (place : Nat) (unclosed : List Nat) : Prop :=
  unclosed.Nodup ∧ ∀ i ∈ unclosed, i < place

section Stack

variable {place i : Nat} {unclosed : List Nat} {cs : List Char}

theorem Stacked.mono (h : Stacked place unclosed) (more : Nat) :
    Stacked (place + more) unclosed :=
  ⟨h.1, fun i hi => Nat.lt_of_lt_of_le (h.2 i hi) (Nat.le_add_right place more)⟩

theorem Stacked.push (h : Stacked place unclosed) : Stacked (place + 2) (place :: unclosed) := by
  refine ⟨List.nodup_cons.mpr ⟨fun hmem => Nat.lt_irrefl _ (h.2 place hmem), h.1⟩, ?_⟩
  intro i hi
  rcases List.mem_cons.mp hi with rfl | hi
  · omega
  · exact (h.mono 2).2 i hi

theorem Stacked.pop {latest : Nat} (h : Stacked place (latest :: unclosed)) :
    Stacked (place + 1) unclosed :=
  ⟨(List.nodup_cons.mp h.1).2, fun i hi => (h.mono 1).2 i (List.mem_cons_of_mem _ hi)⟩

/-- A pair is no pair of another `${`. -/
theorem exists_pair_cons {latest j : Nat} {pairs : List (Nat × Nat)} (hne : i ≠ latest) :
    (∃ k, (i, k) ∈ (latest, j) :: pairs) ↔ ∃ k, (i, k) ∈ pairs := by
  simp [hne]

/-- **A stack of places and a count of depths** find the same: the `${` at a height of the stack
is closed in the rest of the text exactly if the rest closes as many. -/
theorem matched_iff_closes (h : Stacked place unclosed) {height : Nat}
    (hi : unclosed[height]? = some i) :
    (∃ j, (i, j) ∈ pairsFrom place unclosed cs) ↔ closes (height + 1) cs = true := by
  fun_induction pairsFrom place unclosed cs generalizing height with
  | case1 place unclosed rest ih =>
      rw [closes]
      exact ih h.push hi
  | case2 place latest unclosed rest ih =>
      rw [closes]
      cases height with
      | zero =>
          obtain rfl : latest = i := Option.some.inj hi
          simp
      | succ height =>
          have hmem : i ∈ unclosed := List.mem_of_getElem? hi
          have hne : i ≠ latest := fun heq => (List.nodup_cons.mp h.1).1 (heq ▸ hmem)
          rw [exists_pair_cons hne, ih h.pop hi]
          simp
  | case3 place unclosed c rest hopens hcloses ih =>
      rw [closes]
      · exact ih (h.mono 1) hi
      · exact hopens
      · rintro rfl
        cases unclosed with
        | nil => contradiction
        | cons latest unclosed => exact hcloses latest unclosed rfl rfl
  | case4 place unclosed => simp [closes]

/-- A character that opens nothing only moves what opens behind it. -/
theorem exists_opensAt_cons {kind : List Char → Bool} {c : Char} {rest : List Char}
    (hopens : ∀ behind, c = '$' → rest = '{' :: behind → False) :
    (∃ k, i = place + k ∧ OpensAt kind (c :: rest) k) ↔
      ∃ k, i = place + 1 + k ∧ OpensAt kind rest k := by
  constructor
  · rintro ⟨k, rfl, hk⟩
    obtain ⟨l, rfl, hl⟩ := (opensAt_cons hopens).mp hk
    exact ⟨l, by omega, hl⟩
  · rintro ⟨k, rfl, hk⟩
    exact ⟨k + 1, by omega, opensAt_cons_succ.mpr hk⟩

/-- What is matched and not yet open is a `${` of the text that the text behind it closes. -/
theorem matched_iff_opensAt (h : Stacked place unclosed) (hi : i ∉ unclosed) :
    (∃ j, (i, j) ∈ pairsFrom place unclosed cs) ↔
      ∃ k, i = place + k ∧ OpensAt (closes 1) cs k := by
  fun_induction pairsFrom place unclosed cs with
  | case1 place unclosed rest ih =>
      by_cases hhere : i = place
      · subst hhere
        have hzero : (∃ k, i = i + k ∧ OpensAt (closes 1) ('$' :: '{' :: rest) k) ↔
            closes 1 rest = true := by
          simp [opensAt_opener]
        rw [hzero]
        exact matched_iff_closes h.push rfl
      · rw [ih h.push (List.not_mem_cons_of_ne_of_not_mem hhere hi)]
        constructor
        · rintro ⟨k, rfl, hk⟩
          exact ⟨k + 2, by omega, opensAt_opener.mpr (Or.inr ⟨k, rfl, hk⟩)⟩
        · rintro ⟨k, rfl, hk⟩
          rcases opensAt_opener.mp hk with ⟨rfl, -⟩ | ⟨l, rfl, hl⟩
          · exact absurd rfl hhere
          · exact ⟨l, by omega, hl⟩
  | case2 place latest unclosed rest ih =>
      have hne : i ≠ latest := fun heq => hi (heq ▸ List.mem_cons_self)
      have hbrace : ∀ behind, '}' = '$' → rest = '{' :: behind → False :=
        fun _ heq _ => absurd heq (by decide)
      rw [exists_pair_cons hne, exists_opensAt_cons hbrace]
      exact ih h.pop fun hmem => hi (List.mem_cons_of_mem _ hmem)
  | case3 place unclosed c rest hopens hcloses ih =>
      rw [exists_opensAt_cons hopens]
      exact ih (h.mono 1) hi
  | case4 place unclosed => simp [not_opensAt_nil]

end Stack

/-- A `${` is matched exactly if the text behind it closes it. -/
theorem matched_iff {cs : List Char} {i : Nat} : Matched cs i ↔ OpensAt (closes 1) cs i := by
  have hstack : Stacked 0 [] := ⟨List.nodup_nil, fun i hi => absurd hi List.not_mem_nil⟩
  rw [Matched, matched_iff_opensAt hstack List.not_mem_nil]
  simp

/-- **The references that are anchored** are those that the scanner takes for relative. -/
theorem anchorsAt_iff {cs : List Char} {i : Nat} : AnchorsAt cs i ↔ OpensAt isRelative cs i := by
  have hbehind : ∀ front rest : List Char,
      (front ++ '$' :: '{' :: rest)[front.length + 2]? = rest.head? := by
    intro front rest
    rw [List.getElem?_append_right (Nat.le_add_right _ _), Nat.add_sub_cancel_left]
    exact List.head?_eq_getElem?.symm
  rw [AnchorsAt, matched_iff]
  constructor
  · rintro ⟨⟨front, rest, rfl, rfl, hcloses⟩, hslash, hbrace⟩
    rw [hbehind] at hslash hbrace
    refine ⟨front, rest, rfl, rfl, ?_⟩
    rw [isRelative, hcloses, Bool.and_true, Bool.and_eq_true, bne_iff_ne, bne_iff_ne]
    exact ⟨hslash, hbrace⟩
  · rintro ⟨front, rest, rfl, rfl, hrelative⟩
    rw [isRelative, Bool.and_eq_true, Bool.and_eq_true, bne_iff_ne, bne_iff_ne] at hrelative
    obtain ⟨⟨hslash, hbrace⟩, hcloses⟩ := hrelative
    rw [hbehind]
    exact ⟨⟨front, rest, rfl, rfl, hcloses⟩, hslash, hbrace⟩

/-! ## Stretches of a text -/

/-- What stands in a text from the `${` of a reference on: a number of steps to the parent, and
what is behind them. -/
structure Stretch where
  up : Nat
  behind : List Char

namespace Stretch

/-- A stretch as it is written. -/
def written (s : Stretch) : List Char :=
  '$' :: '{' :: (stepsText s.up ++ s.behind)

/-- A stretch with the container that the steps lead to in their place. -/
def anchored (container : Path) (s : Stretch) : List Char :=
  '$' :: '{' :: (containerText (container.ancestor s.up) ++ s.behind)

/-- The places where stretches start that are written one after the other. -/
def places : Nat → List Stretch → List Nat
  | _, [] => []
  | place, s :: ss => place :: places (place + s.written.length) ss

theorem length_written (s : Stretch) : s.written.length = s.behind.length + (3 * s.up + 2) := by
  rw [written, List.length_cons, List.length_cons, List.length_append, length_stepsText]
  omega

theorem mem_places_add {i place more : Nat} {ss : List Stretch} :
    i ∈ places (place + more) ss ↔ ∃ k, i = k + more ∧ k ∈ places place ss := by
  induction ss generalizing place with
  | nil => simp [places]
  | cons s ss ih =>
      have hnext : place + more + s.written.length = place + s.written.length + more := by omega
      rw [places, places, List.mem_cons, hnext, ih]
      constructor
      · rintro (rfl | ⟨k, rfl, hk⟩)
        · exact ⟨place, rfl, List.mem_cons_self⟩
        · exact ⟨k, rfl, List.mem_cons_of_mem _ hk⟩
      · rintro ⟨k, rfl, hk⟩
        rcases List.mem_cons.mp hk with rfl | hk
        · exact Or.inl rfl
        · exact Or.inr ⟨k, rfl, hk⟩

theorem exists_mem_places {place : Nat} {ss : List Stretch} :
    (∃ i, i ∈ places place ss) ↔ ss ≠ [] := by
  cases ss with
  | nil => simp [places]
  | cons s ss => simp [places]

end Stretch

/-! ## Anchoring by stretches -/

/-- A text is cut into a front and stretches, one for each reference that is anchored. -/
structure Cut (cs front : List Char) (stretches : List Stretch) : Prop where
  spelled : cs = front ++ stretches.flatMap Stretch.written
  stepless : ∀ s ∈ stretches, ¬ ['.', '.', '/'] <+: s.behind
  starts : ∀ i, i ∈ Stretch.places front.length stretches ↔ OpensAt isRelative cs i
  rewritten : ∀ container, anchorFrom container 0 cs =
    front ++ stretches.flatMap (Stretch.anchored container)

variable {cs rest front : List Char} {stretches : List Stretch}

theorem Cut.nil : Cut [] [] [] where
  spelled := rfl
  stepless := fun s hs => absurd hs List.not_mem_nil
  starts := fun i => by simp [Stretch.places, not_opensAt_nil]
  rewritten := fun container => rfl

/-- Characters in front of a cut text that open no reference belong to its front. -/
theorem Cut.append (h : Cut rest front stretches) (before : List Char)
    (hopens : ∀ i, OpensAt isRelative (before ++ rest) i ↔
      ∃ k, i = k + before.length ∧ OpensAt isRelative rest k)
    (hanchor : ∀ container,
      anchorFrom container 0 (before ++ rest) = before ++ anchorFrom container 0 rest) :
    Cut (before ++ rest) (before ++ front) stretches where
  spelled := by rw [List.append_assoc, ← h.spelled]
  stepless := h.stepless
  starts := fun i => by
    rw [hopens, List.length_append, Nat.add_comm, Stretch.mem_places_add]
    simp only [h.starts]
  rewritten := fun container => by rw [hanchor, h.rewritten, List.append_assoc]

/-- A reference in front of a cut text starts a stretch, to which the front belongs. -/
theorem Cut.reference (h : Cut rest front stretches) {up : Nat}
    (hrelative : isRelative (stepsText up ++ rest) = true) (hrest : ¬ ['.', '.', '/'] <+: rest) :
    Cut ('$' :: '{' :: (stepsText up ++ rest)) [] (⟨up, front⟩ :: stretches) where
  spelled := by
    rw [List.nil_append, List.flatMap_cons, Stretch.written, List.cons_append, List.cons_append,
      List.append_assoc, ← h.spelled]
  stepless := by
    intro s hs
    rcases List.mem_cons.mp hs with rfl | hs
    · exact fun hfront => hrest (h.spelled ▸ hfront.trans (List.prefix_append _ _))
    · exact h.stepless s hs
  starts := fun i => by
    have hdollar : '$' ∉ stepsText up := fun hmem =>
      (isKeyChar_iff.mp (isKeyChar_stepsText up '$' hmem)).1 rfl
    rw [Stretch.places, List.length_nil, Nat.zero_add, Stretch.length_written, List.mem_cons,
      Stretch.mem_places_add, opensAt_opener]
    simp only [hrelative, and_true, opensAt_append hdollar, length_stepsText, h.starts]
    refine or_congr_right ⟨?_, ?_⟩
    · rintro ⟨k, rfl, hk⟩
      exact ⟨k + 3 * up, by omega, k, rfl, hk⟩
    · rintro ⟨_, rfl, k, rfl, hk⟩
      exact ⟨k, by omega, hk⟩
  rewritten := fun container => by
    rw [anchorFrom_reference container hrelative hrest, h.rewritten]
    simp only [List.nil_append, List.flatMap_cons, Stretch.anchored, List.cons_append,
      List.append_assoc]

/-- Every text is cut so. -/
theorem exists_cut (cs : List Char) : ∃ front stretches, Cut cs front stretches := by
  induction cs using anchoring_induction with
  | nil => exact ⟨[], [], Cut.nil⟩
  | reference up rest hrelative hrest ih =>
      obtain ⟨front, stretches, hcut⟩ := ih
      exact ⟨[], _, hcut.reference hrelative hrest⟩
  | opener rest hrelative ih =>
      obtain ⟨front, stretches, hcut⟩ := ih
      refine ⟨_, _, hcut.append ['$', '{'] (fun i => ?_) fun container => ?_⟩
      · rw [List.cons_append, List.singleton_append, opensAt_opener]
        simp [hrelative]
      · exact anchorFrom_opener container hrelative
  | char c rest hopens ih =>
      obtain ⟨front, stretches, hcut⟩ := ih
      exact ⟨_, _, hcut.append [c] (fun i => opensAt_cons hopens)
        fun container => anchorFrom_char container hopens⟩

/-- **References are anchored where they are matched.**  A text is a front and stretches.  The
stretches start exactly at the `${` that are matched by a `}` and followed neither by a slash
nor by a closing brace, and what is in a stretch behind the steps to the parent does not go on
with a step.  With every container, anchoring writes the ancestor that the steps lead to in
their place and leaves all other characters, and it reports no change exactly if there is no
such `${`. -/
theorem references_are_anchored (text : String) :
    ∃ front stretches,
      text.toList = front ++ stretches.flatMap Stretch.written ∧
      (∀ s ∈ stretches, ¬ ['.', '.', '/'] <+: s.behind) ∧
      (∀ i, i ∈ Stretch.places front.length stretches ↔ AnchorsAt text.toList i) ∧
      ∀ container,
        anchored? container text = (if stretches = [] then none
          else some (String.ofList (front ++ stretches.flatMap (Stretch.anchored container)))) ∧
        (anchored? container text = none ↔ ∀ i, ¬ AnchorsAt text.toList i) := by
  obtain ⟨front, stretches, hcut⟩ := exists_cut text.toList
  have hfound : hasRelative text.toList = true ↔ stretches ≠ [] := by
    rw [hasRelative_iff, ← Stretch.exists_mem_places]
    exact exists_congr fun i => (hcut.starts i).symm
  refine ⟨front, stretches, hcut.spelled, hcut.stepless,
    fun i => (hcut.starts i).trans anchorsAt_iff.symm, fun container => ⟨?_, ?_⟩⟩
  · rw [anchored?, hcut.rewritten]
    by_cases hnone : stretches = []
    · rw [if_pos hnone, if_neg (hfound.not.mpr (not_not_intro hnone))]
    · rw [if_neg hnone, if_pos (hfound.mpr hnone)]
  · simp only [anchored?, anchorsAt_iff, ← not_exists, ← hasRelative_iff]
    by_cases hrelative : hasRelative text.toList = true <;> simp [hrelative]

end LayeredConfig.Placeholder
