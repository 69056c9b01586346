import LayeredConfig.Placeholder.Anchor
import LayeredConfig.Proofs.Placeholder.Pieces

/-!
# Open and closed braces of a text

Whether a `${` is closed is found by counting: `closes` asks whether a text closes the last of
several open ones, `openDepth` how many it leaves open.

* A text that closes several `${` closes fewer of them (`closes_of_le`), and characters of keys
  do not count (`closes_key_append`, `openDepth_key_append`), nor do whole placeholders
  (`openDepth_wrapChars_append`).
* What stands in front of a text counts by the number of `${` that it leaves open
  (`openDepth_append`, `closes_append`), unless it closes one of those that were open before.
* So a text that closes nothing lets nothing be closed behind it that is not closed without it
  (`closes_of_append`), and in a text that leaves nothing open every `${` is closed
  (`closes_of_openDepth_eq_zero`).
-/

namespace LayeredConfig.Placeholder

variable {cs front rest : List Char} {depth : Nat}

/-- Characters of a key open and close nothing. -/
theorem closes_key_append {key : List Char} (hkey : ∀ c ∈ key, isKeyChar c = true) (depth : Nat)
    (rest : List Char) : closes depth (key ++ rest) = closes depth rest := by
  induction key with
  | nil => rfl
  | cons c key ih =>
      obtain ⟨hdollar, -, hclose⟩ := isKeyChar_iff.mp (hkey c List.mem_cons_self)
      rw [List.cons_append, closes]
      · exact ih fun d hd => hkey d (List.mem_cons_of_mem _ hd)
      · exact fun _ hc => absurd hc hdollar
      · exact hclose

/-- The brace behind a key closes the placeholder. -/
theorem closes_key {key : List Char} (hkey : ∀ c ∈ key, isKeyChar c = true) (rest : List Char) :
    closes 1 (key ++ '}' :: rest) = true :=
  closes_key_append hkey 1 ('}' :: rest)

/-- Characters of a key leave open what is open. -/
theorem openDepth_key_append {key : List Char} (hkey : ∀ c ∈ key, isKeyChar c = true)
    (depth : Nat) (rest : List Char) : openDepth depth (key ++ rest) = openDepth depth rest := by
  induction key with
  | nil => rfl
  | cons c key ih =>
      obtain ⟨hdollar, -, hclose⟩ := isKeyChar_iff.mp (hkey c List.mem_cons_self)
      rw [List.cons_append, openDepth]
      · exact ih fun d hd => hkey d (List.mem_cons_of_mem _ hd)
      · exact fun _ hc => absurd hc hdollar
      · exact hclose

/-- A whole placeholder leaves open what is open in front of it. -/
theorem openDepth_wrapChars_append {key : List Char} (hkey : ∀ c ∈ key, isKeyChar c = true)
    (depth : Nat) (rest : List Char) :
    openDepth depth (wrapChars key ++ rest) = openDepth depth rest := by
  have hwritten : wrapChars key ++ rest = '$' :: '{' :: (key ++ '}' :: rest) := by
    simp [wrapChars]
  rw [hwritten, openDepth, openDepth_key_append hkey, openDepth, Nat.add_sub_cancel]

/-- What opens nothing opens nothing in front of a text that does not start with a brace. -/
theorem not_opens_append {c : Char} (hrest : rest.head? ≠ some '{')
    (h : ∀ behind, c = '$' → front = '{' :: behind → False) (behind : List Char) (hc : c = '$')
    (hbehind : front ++ rest = '{' :: behind) : False := by
  cases front with
  | nil =>
      rw [List.nil_append] at hbehind
      exact hrest (by rw [hbehind]; rfl)
  | cons d front =>
      obtain ⟨rfl, -⟩ := List.cons.inj hbehind
      exact h front hc rfl

/-- A text that closes several `${` closes fewer of them. -/
theorem closes_of_le {less : Nat} (hle : less ≤ depth) (h : closes depth cs = true) :
    closes less cs = true := by
  fun_induction closes depth cs generalizing less with
  | case1 depth rest ih =>
      rw [closes]
      exact ih (Nat.succ_le_succ hle) h
  | case2 depth rest ih =>
      rw [closes, Bool.or_eq_true, decide_eq_true_eq] at *
      rcases h with hdepth | hrest
      · exact Or.inl (Nat.le_trans hle hdepth)
      · exact Or.inr (ih (Nat.sub_le_sub_right hle 1) hrest)
  | case3 depth c rest hopens hcloses ih =>
      rw [closes]
      · exact ih hle h
      · exact hopens
      · exact hcloses
  | case4 => contradiction

/-- The `${` that a text leaves open are open in front of what follows it. -/
theorem openDepth_append (hrest : rest.head? ≠ some '{') :
    openDepth depth (front ++ rest) = openDepth (openDepth depth front) rest := by
  fun_induction openDepth depth front with
  | case1 depth front ih => exact ih
  | case2 depth front ih => exact ih
  | case3 depth c front hopens hcloses ih =>
      rw [List.cons_append, openDepth]
      · exact ih
      · exact not_opens_append hrest hopens
      · exact hcloses
  | case4 => rfl

/-- **A text that closes none of the open `${`** adds to them those that it leaves open. -/
theorem closes_append (hrest : rest.head? ≠ some '{') (h : closes depth front = false) :
    closes depth (front ++ rest) = closes (openDepth depth front) rest := by
  fun_induction closes depth front with
  | case1 depth front ih => exact ih h
  | case2 depth front ih =>
      obtain ⟨hdepth, hfront⟩ := Bool.or_eq_false_iff.mp h
      rw [List.cons_append, closes, hdepth, Bool.false_or, ih hfront, openDepth]
  | case3 depth c front hopens hcloses ih =>
      rw [List.cons_append, closes, ih h, openDepth]
      · exact hopens
      · exact hcloses
      · exact not_opens_append hrest hopens
      · exact hcloses
  | case4 => rfl

/-- A text that closes none of the open `${` leaves as many open. -/
theorem le_openDepth {extra : Nat} (h : closes (extra + 1) cs = false) :
    depth ≤ openDepth (depth + extra) cs := by
  -- `extra` counts the `${` that are open by then and were opened in the text itself
  generalize hmore : extra + 1 = more at h
  fun_induction closes more cs generalizing extra with
  | case1 more rest ih => exact ih (congrArg (· + 1) hmore) h
  | case2 more rest ih =>
      obtain ⟨hdepth, hrest⟩ := Bool.or_eq_false_iff.mp h
      have hpositive : 0 < extra := by
        have hone := of_decide_eq_false hdepth
        omega
      have hless : openDepth (depth + extra) ('}' :: rest) =
          openDepth (depth + (extra - 1)) rest := by
        rw [openDepth, Nat.add_sub_assoc hpositive]
      rw [hless]
      exact ih (by omega) hrest
  | case3 more c rest hopens hcloses ih =>
      rw [openDepth]
      · exact ih hmore h
      · exact hopens
      · exact hcloses
  | case4 more => exact Nat.le_add_right depth extra

/-- Behind a text that closes nothing, what closes some `${` does so by itself. -/
theorem closes_of_append (hrest : rest.head? ≠ some '{') (hfront : closes 1 front = false)
    (hdepth : 1 ≤ depth) (h : closes depth (front ++ rest) = true) : closes depth rest = true := by
  have hnone : closes depth front = false := by
    by_contra hcloses
    rw [closes_of_le hdepth (by simpa using hcloses)] at hfront
    contradiction
  rw [closes_append hrest hnone] at h
  exact closes_of_le (le_openDepth hfront) h

/-- In a text that leaves no `${` open, every `${` is closed. -/
theorem closes_of_openDepth_eq_zero (hopen : openDepth depth cs = 0)
    (hsuffix : '$' :: '{' :: rest <:+ cs) : closes 1 rest = true := by
  obtain ⟨front, rfl⟩ := hsuffix
  rw [openDepth_append (by simp), openDepth] at hopen
  by_contra hcloses
  have hmore : openDepth depth front + 1 ≤ openDepth (openDepth depth front + 1 + 0) rest :=
    le_openDepth (by simpa using hcloses)
  rw [Nat.add_zero, hopen] at hmore
  contradiction

end LayeredConfig.Placeholder
