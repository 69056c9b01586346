import LayeredConfig.Proofs.Path.Keys

/-!
# Paths through sequences

The root notation writes a key behind a slash and an index in brackets, so a path may go
through mappings and sequences in any order.  The reader goes along with it step by step.
What carries the argument is the path that the reader would give if the text ended where it
stands, `Reader.finish`: the notation of one step adds that step to it, whatever place the
reader is in (`finish_read_step`), and so does the notation of a whole path (`finish_read_steps`).

A separator closes what was read, and the reader starts a new piece with an empty key
(`read_separator`).  From there it reads on as at the start of a text, only with the steps already
read in front (`foldlM_read_under`).  So a text in front of a separator and one behind it are read
apart, and their steps are put together: `readChars_append_separator`, and `readChars_below` for a
text behind the notation of a path.
-/

namespace LayeredConfig.Path

/-- A step that its own notation is read as: a key without marks of the notation, or an index
that the reader has room for. -/
def Readable : Segment → Prop
  | .key name => Spellable name
  | .index i => i < indexBound

/-! ## One step -/

/-- A separator closes the path read so far, where a path may end. -/
theorem read_separator {c : Char} (hc : isSeparator c = true) (r : Reader) :
    r.read c = r.finish.map fun p => ⟨p, .key []⟩ := by
  obtain rfl | rfl : c = '.' ∨ c = '/' := by simpa [isSeparator] using hc
  all_goals
    obtain ⟨steps, place⟩ := r
    cases place <;> rfl

/-- So does an opening bracket. -/
theorem read_bracket {r : Reader} {p : Path} (hr : r.finish = some p) :
    r.read '[' = some ⟨p, .bracket []⟩ := by
  obtain ⟨steps, place⟩ := r
  cases place with
  | key read =>
      obtain rfl : steps ++ keyStep read = p := Option.some.inj hr
      rfl
  | bracket digits => contradiction
  | behind =>
      obtain rfl : steps = p := Option.some.inj hr
      rfl

/-- The digits of an index are read one by one. -/
theorem foldlM_read_digits {cs : List Char} (hcs : ∀ c ∈ cs, c.isDigit = true) (p : Path)
    (digits : List Char) :
    cs.foldlM Reader.read ⟨p, .bracket digits⟩ = some ⟨p, .bracket (digits ++ cs)⟩ := by
  induction cs generalizing digits with
  | nil =>
      rw [List.append_nil]
      rfl
  | cons c cs ih =>
      have hdigit : Reader.read ⟨p, .bracket digits⟩ c = some ⟨p, .bracket (digits ++ [c])⟩ := by
        simp [Reader.read, hcs c List.mem_cons_self]
      rw [List.foldlM_cons, hdigit, List.append_cons digits c cs]
      exact ih (fun d hd => hcs d (List.mem_cons_of_mem _ hd)) _

/-- Digits that the reader takes for an index: there is one, and it has room for the number. -/
structure IsIndex (digits : List Char) : Prop where
  ne_nil : digits ≠ []
  isDigit : ∀ c ∈ digits, c.isDigit = true
  bound : Decimal.naturalValue digits < indexBound

/-- Digits in brackets. -/
def bracketed (digits : List Char) : List Char :=
  '[' :: digits ++ [']']

theorem isIndex_naturalText {i : Nat} (hi : i < indexBound) : IsIndex (Decimal.naturalText i) where
  ne_nil := Nat.toDigits_ne_nil
  isDigit := fun _ hc => Nat.isDigit_of_mem_toDigits (by decide) (by decide) hc
  bound := by rwa [Decimal.naturalValue_naturalText]

/-- The bracket behind the digits of an index closes it. -/
theorem read_close {digits : List Char} (h : IsIndex digits) (p : Path) :
    Reader.read ⟨p, .bracket digits⟩ ']' =
      some ⟨p ++ [.index (Decimal.naturalValue digits)], .behind⟩ := by
  have hplace : ¬ Char.isDigit ']' = true := by decide
  rw [Reader.read]
  simp only [if_neg hplace]
  rw [if_pos ⟨trivial, h.ne_nil, h.bound⟩]

/-- Digits in brackets add the index that they stand for. -/
theorem finish_read_bracketed {r : Reader} {p : Path} (hr : r.finish = some p)
    {digits : List Char} (h : IsIndex digits) :
    ∃ r', (bracketed digits).foldlM Reader.read r = some r' ∧
      r'.finish = some (p ++ [.index (Decimal.naturalValue digits)]) := by
  refine ⟨⟨p ++ [.index (Decimal.naturalValue digits)], .behind⟩, ?_, rfl⟩
  have hread := foldlM_read_digits h.isDigit p []
  rw [List.nil_append] at hread
  rw [bracketed, List.cons_append, List.foldlM_cons, read_bracket hr, Option.bind_eq_bind,
    Option.bind_some, List.foldlM_append, hread, Option.bind_eq_bind, Option.bind_some,
    List.foldlM_cons, read_close h]
  rfl

/-- **The notation of one step adds that step.** -/
theorem finish_read_step {r : Reader} {p : Path} (hr : r.finish = some p) {s : Segment}
    (hs : Readable s) :
    ∃ r', (rootedStep s).foldlM Reader.read r = some r' ∧ r'.finish = some (p ++ [s]) := by
  cases s with
  | key name =>
      obtain ⟨hne, hcs⟩ := hs
      refine ⟨⟨p, .key name.toList⟩, ?_, ?_⟩
      · have hkey := foldlM_read_key hcs p []
        rw [rootedStep, List.foldlM_cons, read_separator rfl, hr]
        exact hkey
      · rw [← keyStep_toList hne]
        rfl
  | index i =>
      have hindex := finish_read_bracketed hr (isIndex_naturalText hs)
      rwa [Decimal.naturalValue_naturalText] at hindex

/-- The notation of a path adds the steps of the path. -/
theorem finish_read_steps {steps : Path} (hsteps : ∀ s ∈ steps, Readable s) {r : Reader} {p : Path}
    (hr : r.finish = some p) :
    ∃ r', (steps.flatMap rootedStep).foldlM Reader.read r = some r' ∧
      r'.finish = some (p ++ steps) := by
  induction steps generalizing r p with
  | nil => exact ⟨r, rfl, by rw [List.append_nil, hr]⟩
  | cons s steps ih =>
      obtain ⟨r₁, hread₁, hr₁⟩ := finish_read_step hr (hsteps s List.mem_cons_self)
      obtain ⟨r₂, hread₂, hr₂⟩ := ih (fun t ht => hsteps t (List.mem_cons_of_mem _ ht)) hr₁
      refine ⟨r₂, ?_, ?_⟩
      · rw [List.flatMap_cons, List.foldlM_append, hread₁]
        exact hread₂
      · rw [hr₂, List.append_assoc, List.singleton_append]

/-! ## Texts behind a path -/

/-- The reader with further steps in front of those that it has read. -/
def Reader.under (p : Path) (r : Reader) : Reader :=
  ⟨p ++ r.steps, r.place⟩

theorem read_under (p : Path) (r : Reader) (c : Char) :
    (r.under p).read c = (r.read c).map (Reader.under p) := by
  obtain ⟨steps, place⟩ := r
  cases place <;>
    · simp only [Reader.under, Reader.read]
      split_ifs <;> simp [Reader.under]

theorem finish_under (p : Path) (r : Reader) :
    (r.under p).finish = r.finish.map (p ++ ·) := by
  obtain ⟨steps, place⟩ := r
  cases place <;> simp [Reader.under, Reader.finish]

/-- The steps in front have no say in how a text is read. -/
theorem foldlM_read_under (p : Path) (r : Reader) (cs : List Char) :
    cs.foldlM Reader.read (r.under p) = (cs.foldlM Reader.read r).map (Reader.under p) := by
  induction cs generalizing r with
  | nil => rfl
  | cons c cs ih =>
      rw [List.foldlM_cons, List.foldlM_cons, read_under]
      cases r.read c with
      | none => rfl
      | some next => exact ih next

/-- The slash that a text may start with is a separator like any other. -/
theorem readChars_eq (cs : List Char) :
    readChars cs = (cs.foldlM Reader.read ⟨[], .key []⟩).bind Reader.finish := by
  unfold readChars dropSlash
  split <;> rfl

/-- **What stands on both sides of a separator is read apart**, and the steps are put together. -/
theorem readChars_append_separator (cs : List Char) {c : Char} (hc : isSeparator c = true)
    (rest : List Char) :
    readChars (cs ++ c :: rest) =
      (readChars cs).bind fun p => (readChars rest).map (p ++ ·) := by
  rw [readChars_eq, readChars_eq, readChars_eq, List.foldlM_append]
  cases cs.foldlM Reader.read ⟨[], .key []⟩ with
  | none => rfl
  | some r =>
      rw [Option.bind_eq_bind, Option.bind_some, Option.bind_some, List.foldlM_cons,
        read_separator hc]
      cases r.finish with
      | none => rfl
      | some p =>
          have hstart : (⟨p, .key []⟩ : Reader) = Reader.under p ⟨[], .key []⟩ := by
            rw [Reader.under, List.append_nil]
          rw [Option.map_some, Option.bind_eq_bind, Option.bind_some, Option.bind_some, hstart,
            foldlM_read_under]
          cases rest.foldlM Reader.read ⟨[], .key []⟩ with
          | none => rfl
          | some last => exact finish_under p last

/-- The notation of a path, without the slash for the root, is read as the path. -/
theorem readChars_steps {p : Path} (hp : ∀ s ∈ p, Readable s) :
    readChars (p.flatMap rootedStep) = some p := by
  obtain ⟨r, hread, hfinish⟩ := finish_read_steps hp (r := ⟨[], .key []⟩) (p := []) rfl
  rw [readChars_eq, hread]
  exact hfinish

/-- **The root notation of a path is read as the path.** -/
theorem read?_rooted {p : Path} (hp : ∀ s ∈ p, Readable s) : read? (rooted p) = some p := by
  rw [rooted]
  split
  · next hempty =>
      obtain rfl := List.isEmpty_iff.mp hempty
      rfl
  · rw [read?, String.toList_ofList, readChars_steps hp]

/-- **A text behind a path and a slash** is read as a path below that path. -/
theorem readChars_below {p : Path} (hp : ∀ s ∈ p, Readable s) (cs : List Char) :
    readChars (p.flatMap rootedStep ++ '/' :: cs) = (readChars cs).map (p ++ ·) := by
  rw [readChars_append_separator _ rfl, readChars_steps hp, Option.bind_some]

end LayeredConfig.Path
