import LayeredConfig.Tree.Value

/-!
# Edits that may stop early

An edit of a tree that fails half way leaves its mark: what was written before
the failure stays.  `Edited ε α` is the state after such an edit together with
the cause, if it stopped.  `Edited.andThen` goes on with a further edit unless
the first one stopped.
-/

namespace LayeredConfig

/-- What an edit left behind, and why it stopped if it did not finish. -/
structure Edited (ε α : Type) where
  result : α
  failure : Option ε

namespace Edited

variable {ε α β : Type}

/-- An edit that finished. -/
def done (a : α) : Edited ε α := ⟨a, none⟩

/-- An edit that stopped. -/
def stop (a : α) (e : ε) : Edited ε α := ⟨a, some e⟩

/-- The same edit seen inside a larger structure. -/
def map (f : α → β) (r : Edited ε α) : Edited ε β := ⟨f r.result, r.failure⟩

/-- The same edit with its cause put into a larger context. -/
def mapFailure {ε' : Type} (f : ε → ε') (r : Edited ε α) : Edited ε' α :=
  ⟨r.result, r.failure.map f⟩

/-- Goes on with a further edit of the same structure, unless this one stopped. -/
def andThen (r : Edited ε α) (next : α → Edited ε α) : Edited ε α :=
  match r.failure with
  | some e => ⟨r.result, some e⟩
  | none => next r.result

/-- The result of an edit that finished, else the cause. -/
def toExcept (r : Edited ε α) : Except ε α :=
  match r.failure with
  | some e => .error e
  | none => .ok r.result

/-- Applies edits one after the other until one stops. -/
def foldl (step : β → α → Edited ε β) (b : β) : List α → Edited ε β
  | [] => done b
  | a :: rest => (step b a).andThen fun b => foldl step b rest

@[simp] theorem result_map (f : α → β) (r : Edited ε α) : (r.map f).result = f r.result := rfl

@[simp] theorem failure_map (f : α → β) (r : Edited ε α) : (r.map f).failure = r.failure := rfl

/-- An edit that goes on without doing anything is the edit itself. -/
@[simp] theorem andThen_done (r : Edited ε α) : r.andThen done = r := by
  obtain ⟨result, failure⟩ := r
  cases failure <;> rfl

/-- A finished edit goes on with the next one. -/
@[simp] theorem done_andThen (a : α) (next : α → Edited ε α) :
    (done a).andThen next = next a := rfl

/-- A finished edit inside a larger structure. -/
@[simp] theorem done_map (f : α → β) (a : α) : (done a : Edited ε α).map f = done (f a) := rfl

/-- A finished edit has no cause to report. -/
@[simp] theorem failure_done (a : α) : (done a : Edited ε α).failure = none := rfl

/-- The structure that a finished edit leaves. -/
@[simp] theorem result_done (a : α) : (done a : Edited ε α).result = a := rfl

/-- An edit without a cause is a finished one. -/
theorem eq_done {r : Edited ε α} (h : r.failure = none) : r = done r.result := by
  obtain ⟨result, failure⟩ := r
  obtain rfl : failure = none := h
  rfl

/-- An edit with a cause is a stopped one. -/
theorem eq_stop {r : Edited ε α} {e : ε} (h : r.failure = some e) : r = stop r.result e := by
  obtain ⟨result, failure⟩ := r
  obtain rfl : failure = some e := h
  rfl

/-- An edit in two parts fails in the first or in the second. -/
theorem failure_andThen {r : Edited ε α} {next : α → Edited ε α} {e : ε}
    (h : (r.andThen next).failure = some e) :
    r.failure = some e ∨ (next r.result).failure = some e := by
  unfold andThen at h
  split at h
  · next hr => exact Or.inl (by rw [hr]; exact h)
  · exact Or.inr h

/-- An edit in two parts finishes if both parts do. -/
theorem andThen_eq_done {r : Edited ε α} {next : α → Edited ε α} {a : α}
    (h : r.andThen next = done a) : r = done r.result ∧ next r.result = done a := by
  unfold andThen at h
  split at h
  · exact absurd (congrArg failure h) (Option.some_ne_none _)
  · next hr => exact ⟨eq_done hr, h⟩

/-- The error of an edit is its cause. -/
theorem toExcept_eq_error_iff {r : Edited ε α} {e : ε} :
    r.toExcept = .error e ↔ r.failure = some e := by
  obtain ⟨result, failure⟩ := r
  cases failure <;> simp [toExcept]

/-- The result of an edit that finished. -/
theorem toExcept_eq_ok {r : Edited ε α} {a : α} (h : r.toExcept = .ok a) : r = done a := by
  obtain ⟨result, failure⟩ := r
  cases failure with
  | some e => contradiction
  | none => exact congrArg done (Except.ok.inj h)

/-- A chain of edits that stops does so in one of them, after all those in front of it have
finished. -/
theorem exists_stop_of_foldl {step : β → α → Edited ε β} {as : List α} {b : β} {e : ε}
    (h : (foldl step b as).failure = some e) :
    ∃ front a behind b', as = front ++ a :: behind ∧ foldl step b front = .done b' ∧
      step b' a = .stop (foldl step b as).result e := by
  induction as generalizing b with
  | nil => contradiction
  | cons a as ih =>
      rw [foldl] at h ⊢
      cases hstep : (step b a).failure with
      | some e' =>
          rw [eq_stop hstep] at h ⊢
          obtain rfl : e' = e := Option.some.inj h
          exact ⟨[], a, as, b, rfl, rfl, eq_stop hstep⟩
      | none =>
          rw [eq_done hstep, done_andThen] at h ⊢
          obtain ⟨front, a', behind, b', rfl, hfront, hstop⟩ := ih h
          refine ⟨a :: front, a', behind, b', rfl, ?_, hstop⟩
          rw [foldl, eq_done hstep, done_andThen]
          exact hfront

/-- A chain of edits fails in one of them. -/
theorem failure_foldl {step : β → α → Edited ε β} {as : List α} {b : β} {e : ε}
    (h : (foldl step b as).failure = some e) :
    ∃ b, ∃ a ∈ as, (step b a).failure = some e := by
  obtain ⟨front, a, behind, b', rfl, -, hstop⟩ := exists_stop_of_foldl h
  exact ⟨b', a, by simp, congrArg failure hstop⟩

end Edited

end LayeredConfig
