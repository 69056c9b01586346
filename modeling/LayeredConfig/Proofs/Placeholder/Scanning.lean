import LayeredConfig.Proofs.Placeholder.Relative

/-!
# How references are scanned

The scanner of relative references goes through a text once and asks at every `${` about the
text behind it.  So whether it takes up a `${` does not depend on what is in front of it:
`OpensAt` says of a place that a `${` stands there and that the text behind it is of a given
kind, and the scanner finds a reference exactly if there is a place with a relative one
(`hasRelative_iff`).

Anchoring goes through a text in the same way, but behind a reference it goes on after the
steps to the parent.  What it does at each point is one of four things
(`anchorFrom_reference`, `anchorFrom_opener`, `anchorFrom_char` and the end of the text), and
`anchoring_induction` follows them.
-/

namespace LayeredConfig.Placeholder

/-- At this place of the text stands a `${`, and the text behind it is of the kind. -/
def OpensAt (kind : List Char → Bool) (cs : List Char) (i : Nat) : Prop :=
  ∃ front rest, cs = front ++ '$' :: '{' :: rest ∧ front.length = i ∧ kind rest = true

variable {kind : List Char → Bool} {cs rest : List Char} {c : Char} {i : Nat}

theorem not_opensAt_nil : ¬ OpensAt kind [] i := by
  rintro ⟨front, rest, hcs, -, -⟩
  exact absurd hcs.symm (List.append_ne_nil_of_right_ne_nil front (List.cons_ne_nil _ _))

/-- One character further on, the same `${` stands at a place less. -/
theorem opensAt_cons_succ : OpensAt kind (c :: cs) (i + 1) ↔ OpensAt kind cs i := by
  constructor
  · rintro ⟨front, rest, hcs, hlength, hrest⟩
    cases front with
    | nil => contradiction
    | cons d front =>
        obtain ⟨-, rfl⟩ := List.cons.inj hcs
        exact ⟨front, rest, rfl, Nat.succ.inj hlength, hrest⟩
  · rintro ⟨front, rest, rfl, rfl, hrest⟩
    exact ⟨c :: front, rest, rfl, rfl, hrest⟩

theorem opensAt_zero :
    OpensAt kind cs 0 ↔ ∃ rest, cs = '$' :: '{' :: rest ∧ kind rest = true := by
  constructor
  · rintro ⟨front, rest, hcs, hlength, hrest⟩
    obtain rfl := List.eq_nil_of_length_eq_zero hlength
    exact ⟨rest, hcs, hrest⟩
  · rintro ⟨rest, rfl, hrest⟩
    exact ⟨[], rest, rfl, rfl, hrest⟩

/-- At a character that opens nothing no `${` stands. -/
theorem opensAt_cons (h : ∀ rest, c = '$' → cs = '{' :: rest → False) :
    OpensAt kind (c :: cs) i ↔ ∃ k, i = k + 1 ∧ OpensAt kind cs k := by
  cases i with
  | zero =>
      rw [opensAt_zero]
      constructor
      · rintro ⟨rest, hcs, -⟩
        obtain ⟨hc, hrest⟩ := List.cons.inj hcs
        exact absurd hrest (h rest hc)
      · rintro ⟨k, hk, -⟩
        contradiction
  | succ i =>
      rw [opensAt_cons_succ]
      constructor
      · exact fun hi => ⟨i, rfl, hi⟩
      · rintro ⟨k, hk, hi⟩
        exact Nat.succ.inj hk ▸ hi

/-- A `${` is itself of the kind or not, and behind it there are others. -/
theorem opensAt_opener :
    OpensAt kind ('$' :: '{' :: rest) i ↔
      i = 0 ∧ kind rest = true ∨ ∃ k, i = k + 2 ∧ OpensAt kind rest k := by
  have hbrace : ∀ rest', '{' = '$' → rest = '{' :: rest' → False := fun _ heq => by
    exact absurd heq (by decide)
  cases i with
  | zero => simp [opensAt_zero]
  | succ i => simp [opensAt_cons_succ, opensAt_cons hbrace]

/-- In front of a text, characters without a dollar sign only move what opens in it. -/
theorem opensAt_append {front : List Char} (hfront : '$' ∉ front) :
    OpensAt kind (front ++ cs) i ↔ ∃ k, i = k + front.length ∧ OpensAt kind cs k := by
  induction front generalizing i with
  | nil => simp
  | cons c front ih =>
      have hc : ∀ rest, c = '$' → front ++ cs = '{' :: rest → False :=
        fun _ heq _ => hfront (heq ▸ List.mem_cons_self)
      rw [List.cons_append, opensAt_cons hc, List.length_cons]
      constructor
      · rintro ⟨k, rfl, hk⟩
        obtain ⟨l, rfl, hl⟩ := (ih fun hmem => hfront (List.mem_cons_of_mem _ hmem)).mp hk
        exact ⟨l, rfl, hl⟩
      · rintro ⟨l, rfl, hl⟩
        exact ⟨l + front.length, rfl,
          (ih fun hmem => hfront (List.mem_cons_of_mem _ hmem)).mpr ⟨l, rfl, hl⟩⟩

/-- **The scanner finds a reference** exactly if one stands somewhere in the text. -/
theorem hasRelative_iff : hasRelative cs = true ↔ ∃ i, OpensAt isRelative cs i := by
  fun_induction hasRelative cs with
  | case1 rest ih =>
      rw [Bool.or_eq_true, ih]
      constructor
      · rintro (hrest | ⟨i, hi⟩)
        · exact ⟨0, opensAt_opener.mpr (Or.inl ⟨rfl, hrest⟩)⟩
        · exact ⟨i + 2, opensAt_opener.mpr (Or.inr ⟨i, rfl, hi⟩)⟩
      · rintro ⟨i, hi⟩
        rcases opensAt_opener.mp hi with ⟨-, hrest⟩ | ⟨k, -, hk⟩
        · exact Or.inl hrest
        · exact Or.inr ⟨k, hk⟩
  | case2 c rest hopens ih =>
      rw [ih]
      constructor
      · rintro ⟨i, hi⟩
        exact ⟨i + 1, (opensAt_cons hopens).mpr ⟨i, rfl, hi⟩⟩
      · rintro ⟨i, hi⟩
        obtain ⟨k, -, hk⟩ := (opensAt_cons hopens).mp hi
        exact ⟨k, hk⟩
  | case3 => simp [not_opensAt_nil]


/-! ## Anchoring along a text -/

/-- Steps at the front of a text, and a rest that starts with none. -/
theorem exists_steps (cs : List Char) :
    ∃ rest, cs = stepsText (parentSteps cs) ++ rest ∧ ¬ ['.', '.', '/'] <+: rest := by
  fun_induction parentSteps cs with
  | case1 cs ih =>
      obtain ⟨rest, hcs, hrest⟩ := ih
      exact ⟨rest, congrArg (['.', '.', '/'] ++ ·) hcs, hrest⟩
  | case2 cs hsteps =>
      refine ⟨cs, rfl, ?_⟩
      rintro ⟨rest, hrest⟩
      exact hsteps rest hrest.symm

/-- Leaving characters out is anchoring what is behind them. -/
theorem anchorFrom_eq_drop (container : Path) (skip : Nat) (cs : List Char) :
    anchorFrom container skip cs = anchorFrom container 0 (cs.drop skip) := by
  induction cs generalizing skip with
  | nil =>
      rw [List.drop_nil]
      cases skip <;> rfl
  | cons c cs ih =>
      cases skip with
      | zero => rfl
      | succ skip => exact ih skip

/-- What anchoring does at the `${` of a relative reference. -/
theorem anchorFrom_reference (container : Path) {up : Nat} {rest : List Char}
    (hrelative : isRelative (stepsText up ++ rest) = true) (hrest : ¬ ['.', '.', '/'] <+: rest) :
    anchorFrom container 0 ('$' :: '{' :: (stepsText up ++ rest)) =
      '$' :: '{' :: (containerText (container.ancestor up) ++ anchorFrom container 0 rest) := by
  have hdrop : (stepsText up ++ rest).drop (3 * up) = rest := by
    rw [← length_stepsText, List.drop_left]
  rw [anchorFrom, if_pos hrelative]
  simp only [parentSteps_append up hrest]
  rw [anchorFrom_eq_drop, hdrop]
  rfl

/-- A `${` that opens no relative reference is kept. -/
theorem anchorFrom_opener (container : Path) (hrelative : isRelative rest = false) :
    anchorFrom container 0 ('$' :: '{' :: rest) = '$' :: '{' :: anchorFrom container 0 rest := by
  rw [anchorFrom, hrelative]
  rfl

/-- A character that opens nothing is kept. -/
theorem anchorFrom_char (container : Path) (h : ∀ behind, c = '$' → rest = '{' :: behind → False) :
    anchorFrom container 0 (c :: rest) = c :: anchorFrom container 0 rest := by
  rw [anchorFrom]
  exact h

/-- **Induction along a text** as it is anchored. -/
theorem anchoring_induction {motive : List Char → Prop} (nil : motive [])
    (reference : ∀ up rest, isRelative (stepsText up ++ rest) = true →
      ¬ ['.', '.', '/'] <+: rest → motive rest → motive ('$' :: '{' :: (stepsText up ++ rest)))
    (opener : ∀ rest, isRelative rest = false → motive rest → motive ('$' :: '{' :: rest))
    (char : ∀ c rest, (∀ behind, c = '$' → rest = '{' :: behind → False) →
      motive rest → motive (c :: rest))
    (cs : List Char) : motive cs := by
  -- behind a reference the scanner goes on after its steps, so the length is what gets smaller
  induction hlength : cs.length using Nat.strong_induction_on generalizing cs with
  | _ length ih =>
      match cs, hlength with
      | [], _ => exact nil
      | c :: behind, hlength =>
          by_cases hopener : ∃ rest, c = '$' ∧ behind = '{' :: rest
          · obtain ⟨rest, rfl, rfl⟩ := hopener
            rw [List.length_cons, List.length_cons] at hlength
            cases hrelative : isRelative rest with
            | true =>
                obtain ⟨tail, hrest, htail⟩ := exists_steps rest
                have hshort : tail.length ≤ rest.length :=
                  (hrest ▸ List.suffix_append _ tail : tail <:+ rest).length_le
                rw [hrest] at hrelative ⊢
                exact reference _ tail hrelative htail (ih tail.length (by omega) tail rfl)
            | false => exact opener rest hrelative (ih rest.length (by omega) rest rfl)
          · exact char c behind (fun rest hc hrest => hopener ⟨rest, hc, hrest⟩)
              (ih behind.length (hlength ▸ Nat.lt_succ_self _) behind rfl)

end LayeredConfig.Placeholder
