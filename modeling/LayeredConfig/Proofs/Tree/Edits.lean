import LayeredConfig.Tree.Edited

/-!
# Chains of edits

Many things are done to a tree one after the other: leaves are written back, overrides are
filed, tokens are read.  What such a chain does follows from what each of its edits does.
It keeps what every edit keeps (`foldlM_keeps`, `Edited.foldl_keeps`), it fails where one of
them does (`foldlM_error`), and a chain that edits a part of a structure is the same chain on
the whole structure (`Edited.foldl_lift`).
-/

namespace LayeredConfig

/-! ## Chains of steps that may fail -/

section Chain

variable {ε α β : Type}

/-- A run in two parts succeeds if both parts do. -/
theorem bind_ok {x : Except ε α} {next : α → Except ε β} {b : β} (h : (x >>= next) = .ok b) :
    ∃ a, x = .ok a ∧ next a = .ok b := by
  cases x with
  | error e => contradiction
  | ok a => exact ⟨a, rfl, h⟩

/-- A run in two parts fails in the first one, or behind it in the second one. -/
theorem bind_error {x : Except ε α} {next : α → Except ε β} {e : ε}
    (h : (x >>= next) = .error e) : x = .error e ∨ ∃ a, x = .ok a ∧ next a = .error e := by
  cases x with
  | error e' =>
      obtain rfl : e' = e := Except.error.inj h
      exact Or.inl rfl
  | ok a => exact Or.inr ⟨a, rfl, h⟩

/-- A run whose outcome passes a test succeeds. -/
theorem exists_ok_of_any {x : Except ε α} {test : α → Bool}
    (h : x.toOption.any test = true) : ∃ a, x = .ok a ∧ test a = true := by
  cases x with
  | error e => contradiction
  | ok a => exact ⟨a, rfl, h⟩

variable {step other : β → α → Except ε β}

/-- A chain takes from its steps what they do on the members of the list. -/
theorem foldlM_congr_mem {as : List α} (h : ∀ a ∈ as, ∀ b, step b a = other b a) (b : β) :
    as.foldlM step b = as.foldlM other b := by
  induction as generalizing b with
  | nil => rfl
  | cons a as ih =>
      have hrest := ih fun c hc => h c (List.mem_cons_of_mem _ hc)
      rw [List.foldlM_cons, List.foldlM_cons, h a List.mem_cons_self]
      exact congrArg _ (funext hrest)

/-- A chain keeps what every step keeps, for the members that are left. -/
theorem foldlM_keeps {I : List α → β → Prop}
    (hstep : ∀ a as b b', I (a :: as) b → step b a = .ok b' → I as b') {as : List α} {b b' : β}
    (hb : I as b) (h : as.foldlM step b = .ok b') : I [] b' := by
  induction as generalizing b with
  | nil => exact Except.ok.inj h ▸ hb
  | cons a as ih =>
      rw [List.foldlM_cons] at h
      obtain ⟨c, hhead, hrest⟩ := bind_ok h
      exact ih (hstep a as b c hb hhead) hrest

/-- What a chain of steps keeps holds at its end. -/
theorem foldlM_ok {P : β → Prop} (hstep : ∀ b a b', P b → step b a = .ok b' → P b')
    {as : List α} {b b' : β} (hb : P b) (h : as.foldlM step b = .ok b') : P b' :=
  foldlM_keeps (I := fun _ => P) (fun a _ b b' => hstep b a b') hb h

/-- The error of a chain is that of one of its steps. -/
theorem foldlM_error {P : ε → Prop} (hstep : ∀ b a e, step b a = .error e → P e)
    {as : List α} {b : β} {e : ε} (h : as.foldlM step b = .error e) : P e := by
  induction as generalizing b with
  | nil => simp [pure, Except.pure] at h
  | cons a as ih =>
      rw [List.foldlM_cons] at h
      rcases bind_error h with hhead | ⟨b', -, htail⟩
      · exact hstep b a e hhead
      · exact ih htail

end Chain

/-! ## Chains of edits -/

namespace Edited

variable {ε ε' α β γ : Type}

/-- An edit that finishes has one result. -/
theorem done_inj {a b : α} (h : (done a : Edited ε α) = done b) : a = b :=
  congrArg result h

/-- Edits of two lists, one behind the other. -/
theorem foldl_append (step : β → α → Edited ε β) (b : β) (as as' : List α) :
    foldl step b (as ++ as') = (foldl step b as).andThen fun b => foldl step b as' := by
  induction as generalizing b with
  | nil => rfl
  | cons a as ih =>
      rw [List.cons_append, foldl, foldl]
      cases hstep : (step b a).failure with
      | some e =>
          rw [eq_stop hstep]
          rfl
      | none => rw [eq_done hstep, done_andThen, done_andThen, ih]

/-- A chain of edits that finishes inside a part finishes on the whole, if every edit of
the part that finishes is one of the whole. -/
theorem foldl_lift {step : β → α → Edited ε β} {step' : γ → α → Edited ε' γ} (lift : β → γ)
    {as : List α}
    (h : ∀ a ∈ as, ∀ b b', step b a = .done b' → step' (lift b) a = .done (lift b'))
    {b b' : β} (hdone : foldl step b as = .done b') :
    foldl step' (lift b) as = .done (lift b') := by
  induction as generalizing b with
  | nil =>
      obtain rfl : b = b' := congrArg result hdone
      rfl
  | cons a as ih =>
      obtain ⟨hhead, hrest⟩ := andThen_eq_done hdone
      rw [foldl, h a List.mem_cons_self b _ hhead, done_andThen]
      exact ih (fun a' ha' => h a' (List.mem_cons_of_mem _ ha')) hrest

/-- A chain of edits that all finish finishes. -/
theorem foldl_done {step : β → α → Edited ε β} {next : β → α → β}
    (h : ∀ b a, step b a = .done (next b a)) (b : β) (as : List α) :
    foldl step b as = .done (as.foldl next b) := by
  induction as generalizing b with
  | nil => rfl
  | cons a as ih => rw [foldl, h, done_andThen, ih, List.foldl_cons]

/-- What every edit keeps, finished or not, a chain of edits keeps. -/
theorem foldl_keeps {step : β → α → Edited ε β} {P : β → Prop} {as : List α}
    (h : ∀ b, ∀ a ∈ as, P b → P (step b a).result) {b : β} (hb : P b) :
    P (foldl step b as).result := by
  induction as generalizing b with
  | nil => exact hb
  | cons a as ih =>
      have hhead : P (step b a).result := h b a List.mem_cons_self hb
      rw [foldl, andThen]
      split
      · exact hhead
      · exact ih (fun b a' ha' => h b a' (List.mem_cons_of_mem _ ha')) hhead

end Edited

end LayeredConfig
