import LayeredConfig.Path.Reader
import Mathlib.Data.List.Basic

/-!
# Paths of keys

A path that goes down by keys alone is what most paths are: a placeholder's target is one,
unless it goes through a sequence, and so is every path that is written without brackets
(`exists_ofKeys_of_read?`).

A key that holds no mark of the notation is taken in as it stands (`foldlM_read_key`).  What the
reader makes of whole notations is said for all paths in `LayeredConfig.Proofs.Path.Steps`.
-/

namespace LayeredConfig.Path

/-- The path that goes down by keys alone. -/
def ofKeys (names : List String) : Path :=
  names.map .key

/-- A key that a path can be written with: not empty, and without marks of the notation. -/
def Spellable (name : String) : Prop :=
  name ≠ "" ∧ ∀ c ∈ name.toList, c ∉ ['/', '.', '[', ']']

/-- The characters of a key are read one by one. -/
theorem foldlM_read_key {cs : List Char} (hcs : ∀ c ∈ cs, c ∉ ['/', '.', '[', ']'])
    (steps : List Segment) (read : List Char) :
    cs.foldlM Reader.read ⟨steps, .key read⟩ = some ⟨steps, .key (read ++ cs)⟩ := by
  induction cs generalizing read with
  | nil =>
      rw [List.append_nil]
      rfl
  | cons c cs ih =>
      obtain ⟨hslash, hpoint, hopen, hclose⟩ : c ≠ '/' ∧ c ≠ '.' ∧ c ≠ '[' ∧ c ≠ ']' := by
        simpa using hcs c List.mem_cons_self
      have hchar : Reader.read ⟨steps, .key read⟩ c = some ⟨steps, .key (read ++ [c])⟩ := by
        simp [Reader.read, isSeparator, hslash, hpoint, hopen, hclose]
      rw [List.foldlM_cons, hchar, List.append_cons read c cs]
      exact ih (fun d hd => hcs d (List.mem_cons_of_mem _ hd)) _

/-- A finished key that is not empty adds its step. -/
theorem keyStep_toList {name : String} (hname : name ≠ "") :
    keyStep name.toList = [.key name] := by
  have hne : name.toList ≠ [] := fun hnil => hname (String.toList_eq_nil_iff.mp hnil)
  simp [keyStep, hne]

theorem toList_rooted_ofKeys_cons (name : String) (names : List String) :
    (rooted (ofKeys (name :: names))).toList =
      '/' :: (name.toList ++ (ofKeys names).flatMap rootedStep) := by
  rw [rooted, if_neg (by simp [ofKeys]), String.toList_ofList]
  rfl

/-- Without an opening bracket the reader stays inside keys. -/
theorem keys_of_foldlM_read {cs : List Char} (hcs : '[' ∉ cs) (names : List String)
    {read : List Char} {r : Reader}
    (h : cs.foldlM Reader.read ⟨ofKeys names, .key read⟩ = some r) :
    ∃ names' read', r = ⟨ofKeys names', .key read'⟩ := by
  induction cs generalizing names read with
  | nil => exact ⟨names, read, (Option.some.inj h).symm⟩
  | cons c cs ih =>
      have hopen : c ≠ '[' := fun heq => hcs (heq ▸ List.mem_cons_self)
      have hrest : '[' ∉ cs := fun hmem => hcs (List.mem_cons_of_mem _ hmem)
      have hfinished : ∃ names', ofKeys names ++ keyStep read = ofKeys names' := by
        by_cases hempty : read.isEmpty
        · exact ⟨names, by rw [keyStep, if_pos hempty, List.append_nil]⟩
        · exact ⟨names ++ [String.ofList read], by rw [keyStep, if_neg hempty]; simp [ofKeys]⟩
      rw [List.foldlM_cons] at h
      obtain ⟨next, hchar, h⟩ := Option.bind_eq_some_iff.mp h
      simp only [Reader.read, if_neg hopen] at hchar
      split at hchar
      · obtain ⟨names', hnames'⟩ := hfinished
        rw [← Option.some.inj hchar, hnames'] at h
        exact ih hrest names' h
      · split at hchar
        · contradiction
        · rw [← Option.some.inj hchar] at h
          exact ih hrest names h

/-- **A path without brackets** is a path of keys. -/
theorem exists_ofKeys_of_read? {text : String} (htext : '[' ∉ text.toList) {p : Path}
    (h : read? text = some p) : ∃ names, p = ofKeys names := by
  have hdropped : '[' ∉ dropSlash text.toList := by
    unfold dropSlash
    split
    · next rest heq => exact fun hmem => htext (heq ▸ List.mem_cons_of_mem _ hmem)
    · exact htext
  obtain ⟨r, hread, hfinish⟩ := Option.bind_eq_some_iff.mp h
  obtain ⟨names, read, rfl⟩ := keys_of_foldlM_read hdropped [] hread
  rw [Reader.finish] at hfinish
  by_cases hempty : read.isEmpty
  · refine ⟨names, (Option.some.inj hfinish).symm.trans ?_⟩
    rw [keyStep, if_pos hempty, List.append_nil]
  · refine ⟨names ++ [String.ofList read], (Option.some.inj hfinish).symm.trans ?_⟩
    rw [keyStep, if_neg hempty]
    simp [ofKeys]

end LayeredConfig.Path
