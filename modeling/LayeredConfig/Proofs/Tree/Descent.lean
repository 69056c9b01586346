import LayeredConfig.Tree.Access

/-!
# One step down

A step of a path is a key or an index, and everything that goes along a path does one thing
at each step: it goes on with the value that is there, with `Value.child?`.  So what a path
leads to follows from what its steps lead to (`at?_cons`, `at?_append`), and what every step
hands down holds at the end (`at?_keeps`).

There are two kinds of steps that lead somewhere (`child?_cases`).  With what is known of them
no proof about paths has to tell keys from indices again.
-/

namespace LayeredConfig

namespace Value

/-- The value one step down. -/
def child? : Value → Segment → Option Value
  | map entries, .key name => entries.lookup name
  | seq items, .index i => items[i]?
  | _, _ => none

variable {v w child : Value} {s t : Segment} {rest : Path}

/-- A step that leads somewhere is a key of a mapping or an index of a sequence. -/
theorem child?_cases (h : v.child? s = some child) :
    (∃ entries name, v = .map entries ∧ s = .key name ∧ entries.lookup name = some child) ∨
      ∃ items i, v = .seq items ∧ s = .index i ∧ items[i]? = some child := by
  cases s with
  | key name =>
      cases v with
      | map entries => exact Or.inl ⟨entries, name, rfl, rfl, h⟩
      | _ => contradiction
  | index i =>
      cases v with
      | seq items => exact Or.inr ⟨items, i, rfl, rfl, h⟩
      | _ => contradiction

/-- An item that is there stands in a sequence that is longer than its index. -/
theorem isSome_child?_index {i : Nat} :
    (v.child? (.index i)).isSome ↔ ∃ items, v = .seq items ∧ i < items.length := by
  cases v with
  | seq items => simp [child?]
  | _ => simp [child?]

/-! ## The whole way -/

/-- A read goes on with the child. -/
theorem at?_cons (v : Value) (s : Segment) (rest : Path) :
    v.at? (s :: rest) = (v.child? s).bind fun child => child.at? rest := by
  cases s with
  | key name =>
      cases v with
      | map entries =>
          rw [at?, child?]
          cases entries.lookup name <;> rfl
      | _ => rfl
  | index i =>
      cases v with
      | seq items =>
          rw [at?, child?]
          cases items[i]? <;> rfl
      | _ => rfl

/-- A read along two paths, one behind the other. -/
theorem at?_append (v : Value) (p q : Path) :
    v.at? (p ++ q) = (v.at? p).bind fun w => w.at? q := by
  induction p generalizing v with
  | nil => rfl
  | cons s rest ih =>
      rw [List.cons_append, at?_cons, at?_cons, Option.bind_assoc]
      exact congrArg (v.child? s).bind (funext ih)

/-- Below a null there is nothing. -/
theorem at?_null_cons (s : Segment) (rest : Path) : Value.null.at? (s :: rest) = none := by
  cases s <;> rfl

/-- Where nothing is, a read goes on as from a null. -/
theorem getD_at?_cons (v : Value) (s : Segment) (rest : Path) :
    (v.at? (s :: rest)).getD .null = (((v.child? s).getD .null).at? rest).getD .null := by
  rw [at?_cons]
  cases v.child? s with
  | some child => rfl
  | none =>
      cases rest with
      | nil => rfl
      | cons t rest => rw [Option.getD_none, at?_null_cons, Option.bind_none]

/-- A path that leads somewhere does so from its first step on. -/
theorem exists_child_of_at? (h : v.at? (s :: rest) = some w) :
    ∃ child, v.child? s = some child ∧ child.at? rest = some w := by
  rw [at?_cons] at h
  exact Option.bind_eq_some_iff.mp h

/-- **What every step hands down** holds wherever a path leads. -/
theorem at?_keeps {P : Value → Prop}
    (hstep : ∀ {v s child}, P v → v.child? s = some child → P child) (hv : P v) {p : Path}
    (h : v.at? p = some w) : P w := by
  induction p generalizing v with
  | nil =>
      obtain rfl := Option.some.inj h
      exact hv
  | cons s rest ih =>
      obtain ⟨child, hchild, hrest⟩ := exists_child_of_at? h
      exact ih (hstep hv hchild) hrest

end Value

end LayeredConfig
