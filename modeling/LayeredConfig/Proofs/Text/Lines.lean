import LayeredConfig.Text.Blank
import Mathlib.Data.List.Basic

/-!
# The lines of a text

A text is lines, each with its end: a line feed, alone or behind a carriage return.  The last
line may go without an end if there is anything in it.  `Lined` says this of a text and lines
that are given, with no word on how a text is read, and a text has no other lines than those
that are read off it (`lined_iff`).

A carriage return that stands in front of a line feed belongs to the end of the line, and so
no line that is ended by a line feed alone closes with one.  Any other carriage return is a
character of its line.
-/

namespace LayeredConfig.Text

/-- The text is these lines with their ends. -/
inductive Lined : List Char → List (List Char) → Prop
  /-- A text without characters has no lines. -/
  | nil : Lined [] []
  /-- The last line may have no end. -/
  | last {line : List Char} (hne : line ≠ []) (hline : '\n' ∉ line) : Lined line [line]
  /-- A line is ended by a line feed. -/
  | feed {line rest : List Char} {lines : List (List Char)} (hline : '\n' ∉ line)
      (hend : line.getLast? ≠ some '\r') (hrest : Lined rest lines) :
      Lined (line ++ '\n' :: rest) (line :: lines)
  /-- A line is ended by a carriage return and a line feed. -/
  | returnFeed {line rest : List Char} {lines : List (List Char)} (hline : '\n' ∉ line)
      (hrest : Lined rest lines) : Lined (line ++ '\r' :: '\n' :: rest) (line :: lines)

variable {c : Char} {cs line rest : List Char} {lines : List (List Char)}

/-! ## Reading lines off -/

/-- A character that neither ends a line nor begins its end goes to the first line. -/
theorem lineRuns_cons (hc : c ≠ '\n') (hend : c = '\r' → cs.head? ≠ some '\n')
    (hcs : lineRuns cs = line :: lines) : lineRuns (c :: cs) = (c :: line) :: lines := by
  rw [lineRuns, hcs]
  · exact hc
  · rintro rest rfl rfl
    exact hend rfl rfl

/-- A line stands in front of what opens with an end of a line, unless the end takes something
of the line away. -/
theorem lineRuns_append (hline : '\n' ∉ line)
    (hend : line.getLast? = some '\r' → cs.head? ≠ some '\n') (hcs : lineRuns cs = [] :: lines) :
    lineRuns (line ++ cs) = line :: lines := by
  induction line with
  | nil => exact hcs
  | cons c line ih =>
      have hc : '\n' ≠ c := List.ne_of_not_mem_cons hline
      have hrest : '\n' ∉ line := List.not_mem_of_not_mem_cons hline
      cases line with
      | nil => exact lineRuns_cons (Ne.symm hc) (fun heq => hend (heq ▸ rfl)) hcs
      | cons d line =>
          have hd : '\n' ≠ d := List.ne_of_not_mem_cons hrest
          refine lineRuns_cons (Ne.symm hc) (fun _ heq => hd (Option.some.inj heq).symm) (ih hrest ?_)
          rwa [List.getLast?_cons_cons] at hend

/-- A text without a line feed is one line. -/
theorem lineRuns_of_not_mem (hne : line ≠ []) (hline : '\n' ∉ line) :
    lineRuns line = [line] := by
  induction line with
  | nil => contradiction
  | cons c line ih =>
      have hc : '\n' ≠ c := List.ne_of_not_mem_cons hline
      have hrest : '\n' ∉ line := List.not_mem_of_not_mem_cons hline
      cases line with
      | nil =>
          rw [lineRuns]
          · rfl
          · exact Ne.symm hc
          · exact nofun
      | cons d line =>
          have hd : '\n' ≠ d := List.ne_of_not_mem_cons hrest
          exact lineRuns_cons (Ne.symm hc) (fun _ heq => hd (Option.some.inj heq).symm)
            (ih (List.cons_ne_nil _ _) hrest)

/-- Lines are read off as they stand. -/
theorem Lined.eq_lineRuns (h : Lined cs lines) : lines = lineRuns cs := by
  induction h with
  | nil => rfl
  | last hne hline => exact (lineRuns_of_not_mem hne hline).symm
  | feed hline hend _ ih =>
      refine (lineRuns_append hline (fun heq => absurd heq hend) ?_).symm
      rw [lineRuns, ← ih]
  | returnFeed hline _ ih =>
      refine (lineRuns_append hline (fun _ => by simp) ?_).symm
      rw [lineRuns, ← ih]

/-! ## The lines of any text -/

/-- A character that neither ends a line nor begins its end makes the first line longer. -/
theorem Lined.cons (h : Lined cs (line :: lines)) (hc : c ≠ '\n')
    (hend : c = '\r' → cs.head? ≠ some '\n') : Lined (c :: cs) ((c :: line) :: lines) := by
  cases h with
  | last hne hline =>
      exact .last (List.cons_ne_nil _ _) (List.not_mem_cons_of_ne_of_not_mem (Ne.symm hc) hline)
  | @feed _ rest _ hline hlast hrest =>
      have hlonger : Lined ((c :: line) ++ '\n' :: rest) ((c :: line) :: lines) := by
        refine .feed (List.not_mem_cons_of_ne_of_not_mem (Ne.symm hc) hline) ?_ hrest
        cases line with
        | nil => exact fun heq => hend (Option.some.inj heq) rfl
        | cons d line => rwa [List.getLast?_cons_cons]
      exact hlonger
  | @returnFeed _ rest _ hline hrest =>
      have hlonger : Lined ((c :: line) ++ '\r' :: '\n' :: rest) ((c :: line) :: lines) :=
        .returnFeed (List.not_mem_cons_of_ne_of_not_mem (Ne.symm hc) hline) hrest
      exact hlonger

/-- Only the empty text has no lines. -/
theorem Lined.eq_nil (h : Lined cs []) : cs = [] := by
  cases h
  rfl

/-- Every text has the lines that are read off it. -/
theorem lined_lineRuns (cs : List Char) : Lined cs (lineRuns cs) := by
  fun_induction lineRuns cs with
  | case1 => exact .nil
  | case2 rest ih =>
      have hempty : Lined ([] ++ '\n' :: rest) ([] :: lineRuns rest) :=
        .feed List.not_mem_nil nofun ih
      exact hempty
  | case3 rest ih =>
      have hempty : Lined ([] ++ '\r' :: '\n' :: rest) ([] :: lineRuns rest) :=
        .returnFeed List.not_mem_nil ih
      exact hempty
  | case4 c rest hc _ hnone ih =>
      rw [hnone] at ih
      obtain rfl := ih.eq_nil
      exact .last (List.cons_ne_nil _ _) (by simpa using Ne.symm hc)
  | case5 c rest hc hend line lines hlines ih =>
      rw [hlines] at ih
      refine ih.cons hc fun hreturn hfeed => ?_
      obtain ⟨rest', hrest⟩ := List.head?_eq_some_iff.mp hfeed
      exact hend rest' hreturn hrest

/-- **A text has the lines that are read off it** and no others. -/
theorem lined_iff : Lined cs lines ↔ lines = lineRuns cs :=
  ⟨Lined.eq_lineRuns, fun h => h ▸ lined_lineRuns cs⟩

end LayeredConfig.Text
