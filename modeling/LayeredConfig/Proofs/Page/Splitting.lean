import LayeredConfig.Page.Split
import LayeredConfig.Proofs.Text.Lines
import Mathlib.Data.List.DropRight

/-!
# Pages and the lines of a source

A source is cut at its separator lines, and the cutting goes through the lines once, with the
lines of the page that is open and its index in hand.  What comes of it can be said of the
kept lines as a whole.

* A page is a stretch of them (`Stretch`): behind as many separator lines as its index says,
  directly behind the last of these or at the start, and up to the next one or to the end.
* There is one page for each separator line, and one more if lines are left behind the last
  of them.

So every line that is kept and is no separator stands in one page, and all of them do, in
their order.  What carries the induction is where the cutting stands: the lines in front of the
open page close with the separator line that opened it (`ClosesWith`), and none of the lines in
hand is one.
-/

namespace LayeredConfig

/-- The lines hold a number of separator lines, and the last of the lines is one, if there are
any lines. -/
def ClosesWith (separator : String) (count : Nat) (lines : List String) : Prop :=
  lines.countP (Text.trimEnd · = separator) = count ∧
    ∀ line ∈ lines.getLast?, Text.trimEnd line = separator

/-- The lines of a page: they stand behind the separator line whose number is the index, or at
the start for the first page, and reach up to the next separator line or to the end. -/
def Stretch (separator : String) (kept : List String) (index : Nat) (lines : List String) : Prop :=
  ∃ front behind, kept = front ++ (lines ++ behind) ∧ ClosesWith separator index front ∧
    (∀ line ∈ lines, Text.trimEnd line ≠ separator) ∧
    ∀ next ∈ behind.head?, Text.trimEnd next = separator

variable {separator line : String} {index : Nat} {front current lines rest : List String}

/-- A line is kept if its trimmed form is neither empty nor opens with the `#` of comments. -/
theorem isContent_iff :
    isContent line = true ↔
      Text.trim line ≠ "" ∧ (Text.trim line).toList.head? ≠ some '#' := by
  rw [isContent, Ne, ← String.toList_eq_nil_iff]
  cases (Text.trim line).toList with
  | nil => simp
  | cons c cs => simp [commentMark]

/-- The cutting goes on behind a line. -/
theorem pagesFrom_cons :
    pagesFrom separator index current (line :: rest) =
      if Text.trimEnd line = separator then
        ⟨index, current⟩ :: pagesFrom separator (index + 1) [] rest
      else pagesFrom separator index (current ++ [line]) rest := by
  simp only [pagesFrom, separates, beq_iff_eq]

/-! ## Where the cutting stands -/

/-- At the start no separator line was met. -/
theorem closesWith_nil (separator : String) : ClosesWith separator 0 [] :=
  ⟨rfl, nofun⟩

/-- A further separator line closes the lines of the open page. -/
theorem ClosesWith.close (hfront : ClosesWith separator index front)
    (hcurrent : ∀ line ∈ current, Text.trimEnd line ≠ separator)
    (hline : Text.trimEnd line = separator) :
    ClosesWith separator (index + 1) (front ++ (current ++ [line])) := by
  have hnone : current.countP (Text.trimEnd · = separator) = 0 :=
    List.countP_eq_zero.mpr fun other hother => by simpa using hcurrent other hother
  refine ⟨?_, ?_⟩
  · rw [List.countP_append, List.countP_append, List.countP_singleton,
      if_pos (decide_eq_true hline), hfront.1, hnone, Nat.zero_add]
  · rw [← List.append_assoc, List.getLast?_concat]
    rintro _ ⟨⟩
    exact hline

/-- A line that is no separator goes to the open page. -/
theorem trimEnd_ne_of_mem_append (hcurrent : ∀ line ∈ current, Text.trimEnd line ≠ separator)
    (hline : Text.trimEnd line ≠ separator) :
    ∀ other ∈ current ++ [line], Text.trimEnd other ≠ separator := by
  intro other hother
  rcases List.mem_append.mp hother with hmem | hmem
  · exact hcurrent other hmem
  · exact List.mem_singleton.mp hmem ▸ hline

/-- **Pages are stretches** of the lines, numbered on from the open one. -/
theorem stretch_of_getElem?_pagesFrom (hfront : ClosesWith separator index front)
    (hcurrent : ∀ line ∈ current, Text.trimEnd line ≠ separator) {k : Nat} {page : Page}
    (h : (pagesFrom separator index current lines)[k]? = some page) :
    page.index = index + k ∧
      Stretch separator (front ++ (current ++ lines)) (index + k) page.lines := by
  induction lines generalizing front index current k with
  | nil =>
      rw [pagesFrom] at h
      split at h
      · contradiction
      · cases k with
        | zero =>
            obtain rfl := Option.some.inj h
            exact ⟨rfl, front, [], rfl, hfront, hcurrent, nofun⟩
        | succ k => contradiction
  | cons line rest ih =>
      rw [pagesFrom_cons] at h
      split at h
      · next hline =>
          cases k with
          | zero =>
              obtain rfl := Option.some.inj h
              refine ⟨rfl, front, line :: rest, rfl, hfront, hcurrent, ?_⟩
              rintro _ ⟨⟩
              exact hline
          | succ k =>
              have hnext := ih (hfront.close hcurrent hline) (List.forall_mem_nil _) h
              rwa [Nat.add_right_comm, Nat.add_assoc, List.nil_append, List.append_assoc,
                List.append_assoc, List.singleton_append] at hnext
      · next hline =>
          have hnext := ih hfront (trimEnd_ne_of_mem_append hcurrent hline) h
          rwa [List.append_assoc, List.singleton_append] at hnext

/-- Behind a separator line the lines in front of it count for nothing. -/
theorem rtakeWhile_append_cons (hline : Text.trimEnd line = separator)
    (front rest : List String) :
    (front ++ line :: rest).rtakeWhile (Text.trimEnd · ≠ separator) =
      rest.rtakeWhile (Text.trimEnd · ≠ separator) := by
  induction rest using List.reverseRecOn with
  | nil => rw [List.rtakeWhile_concat_neg _ _ _ (by simp [hline]), List.rtakeWhile_nil]
  | append_singleton rest last ih =>
      rw [← List.cons_append, ← List.append_assoc, List.rtakeWhile_concat, List.rtakeWhile_concat,
        ih]

/-- **The number of pages** is that of the separator lines, and one more if lines are left
behind the last of them. -/
theorem length_pagesFrom (hcurrent : ∀ line ∈ current, Text.trimEnd line ≠ separator) :
    (pagesFrom separator index current lines).length =
      lines.countP (Text.trimEnd · = separator) +
        if (current ++ lines).rtakeWhile (Text.trimEnd · ≠ separator) = [] then 0 else 1 := by
  induction lines generalizing index current with
  | nil =>
      have hopen : current.rtakeWhile (Text.trimEnd · ≠ separator) = current :=
        List.rtakeWhile_eq_self_iff.mpr fun line hline => by simpa using hcurrent line hline
      rw [pagesFrom, List.append_nil, hopen, List.countP_nil, Nat.zero_add]
      cases current <;> rfl
  | cons line rest ih =>
      rw [pagesFrom_cons]
      split
      · next hline =>
          rw [List.length_cons, ih (List.forall_mem_nil _), rtakeWhile_append_cons hline,
            List.countP_cons_of_pos (by simpa using hline), List.nil_append, Nat.add_right_comm]
      · next hline =>
          rw [ih (trimEnd_ne_of_mem_append hcurrent hline),
            List.countP_cons_of_neg (by simpa using hline), List.append_assoc,
            List.singleton_append]

/-- **Nothing is lost**, nothing is invented, and the order stays. -/
theorem flatMap_lines_pagesFrom :
    (pagesFrom separator index current lines).flatMap Page.lines =
      current ++ lines.filter (Text.trimEnd · ≠ separator) := by
  induction lines generalizing index current with
  | nil =>
      rw [pagesFrom]
      cases current <;> simp
  | cons line rest ih =>
      rw [pagesFrom_cons]
      split
      · next hline =>
          rw [List.flatMap_cons, ih, List.filter_cons_of_neg (by simpa using hline)]
          rfl
      · next hline =>
          rw [ih, List.filter_cons_of_pos (by simpa using hline), List.append_assoc]
          rfl

/-! ## Sources -/

/-- A page of a source has its place as its index, and its lines are a stretch of the source. -/
theorem stretch_of_getElem?_splitPages {text : String} {k : Nat} {page : Page}
    (h : (splitPages text separator)[k]? = some page) :
    page.index = k ∧
      Stretch separator ((Text.lines text).filter isContent) k page.lines := by
  have hpage := stretch_of_getElem?_pagesFrom (closesWith_nil separator) (List.forall_mem_nil _) h
  rwa [Nat.zero_add, List.nil_append, List.nil_append] at hpage

/-- The index of a page is its place among the pages. -/
theorem index_of_getElem?_splitPages {text : String} {k : Nat} {page : Page}
    (h : (splitPages text separator)[k]? = some page) : page.index = k :=
  (stretch_of_getElem?_splitPages h).1

/-- **Splitting a source loses and invents nothing.**  Of the lines of the text, and it has no
others than those that are read off it, those are kept that are neither blank nor comments.
A kept line is a separator line if it is the separator once blanks at its end are dropped.
The page with the index `i` stands in the `i`-th place, and its lines are, as they are and in
their order, the kept lines behind the `i`-th separator line, or from the start, up to the next
one, or to the end.  There are as many pages as separator lines, and one more exactly if lines
are kept behind the last of these.  The pages together hold every kept line that is no
separator, and nothing else. -/
theorem pages_are_stretches_of_lines (text separator : String) :
    let kept := (Text.lines text).filter fun line =>
      Text.trim line ≠ "" ∧ (Text.trim line).toList.head? ≠ some '#'
    (∀ lines, Text.Lined text.toList lines ↔ lines = (Text.lines text).map String.toList) ∧
      (∀ i page, (splitPages text separator)[i]? = some page →
        page.index = i ∧ Stretch separator kept i page.lines) ∧
      (splitPages text separator).length =
        kept.countP (Text.trimEnd · = separator) +
          (if kept.rtakeWhile (Text.trimEnd · ≠ separator) = [] then 0 else 1) ∧
      (splitPages text separator).flatMap Page.lines =
        kept.filter (Text.trimEnd · ≠ separator) := by
  intro kept
  have hkept : (Text.lines text).filter isContent = kept :=
    List.filter_congr fun line _ => by
      rw [Bool.eq_iff_iff, isContent_iff, decide_eq_true_iff]
  refine ⟨fun lines => ?_, fun i page hpage => ?_, ?_, ?_⟩
  · have hlines : (Text.lines text).map String.toList = Text.lineRuns text.toList := by
      simp [Text.lines, List.map_map, Function.comp_def]
    rw [hlines]
    exact Text.lined_iff
  · rw [← hkept]
    exact stretch_of_getElem?_splitPages hpage
  · rw [← hkept]
    exact length_pagesFrom (List.forall_mem_nil _)
  · rw [← hkept]
    exact flatMap_lines_pagesFrom

/-- A leading separator, a comment that looks like one, one with blanks behind it, and two in
a row. -/
example : splitPages "---\n  a: 1\r\n#---\n\n--- \n---\nb: 2" "---" =
    [⟨0, []⟩, ⟨1, ["  a: 1"]⟩, ⟨2, []⟩, ⟨3, ["b: 2"]⟩] := by decide

end LayeredConfig
