import LayeredConfig.Proofs.Placeholder.Matching

/-!
# Where placeholders stand in a text

An occurrence of a placeholder is a way to write a text as a front, a placeholder and what is
behind it.  This says nothing of scanning.  The scanner cuts a text into pieces from the right,
and what it lists are the placeholders among the pieces:

* the placeholders among the pieces are all occurrences, each one once and from left to right
  (`lists_occurrences`), for a placeholder can be cut out of any text;
* the nested ones are those behind a front that leaves some `${` open (`nestedIn_eq`).  The
  scanner counts as it goes along the pieces, where a placeholder counts for nothing; in the
  front it is a `${` and the `}` that closes it.

That a front leaves a `${` open is said by matching braces, and found by counting
(`leavesOpen_iff`).
-/

namespace LayeredConfig.Placeholder

/-- A front, the key of a placeholder, and what is behind the placeholder. -/
structure Occurrence where
  front : List Char
  key : List Char
  behind : List Char

/-- Some `${` of the text is closed by no `}`. -/
def LeavesOpen (cs : List Char) : Prop :=
  ∃ i, OpensAt (fun _ => true) cs i ∧ ¬ Matched cs i

namespace Occurrence

/-- The text is the front, the placeholder and what is behind it. -/
structure StandsIn (cs : List Char) (o : Occurrence) : Prop where
  spelled : cs = o.front ++ (wrapChars o.key ++ o.behind)
  inert : Inert o.key

/-- All occurrences of placeholders in a text, one for each place and from left to right. -/
structure Lists (cs : List Char) (found : List Occurrence) : Prop where
  members : ∀ o, o ∈ found ↔ StandsIn cs o
  ordered : found.Pairwise fun o other => o.front.length < other.front.length

/-- The key of the placeholder as a text. -/
def keyString (o : Occurrence) : String :=
  String.ofList o.key

/-- The occurrence with more characters in front. -/
def shift (before : List Char) (o : Occurrence) : Occurrence :=
  { o with front := before ++ o.front }

end Occurrence

open Occurrence

/-- The placeholder that a piece in front of others may be. -/
def Piece.occurrence? (ps : List Piece) : Piece → Option Occurrence
  | char _ => none
  | hole key => some ⟨[], key, ps.flatMap chars⟩

/-- The placeholders among pieces, as occurrences in their text. -/
def occurrences : List Piece → List Occurrence
  | [] => []
  | p :: ps => (p.occurrence? ps).toList ++ (occurrences ps).map (shift p.chars)

variable {cs : List Char} {depth : Nat} {o : Occurrence} {p : Piece} {ps : List Piece}

/-! ## All occurrences -/

theorem Piece.eq_hole_of_mem_occurrence? (h : o ∈ (p.occurrence? ps).toList) :
    p = .hole o.key ∧ o.front = [] ∧ o.behind = ps.flatMap Piece.chars := by
  cases p with
  | char c => contradiction
  | hole key =>
      obtain rfl := List.mem_singleton.mp h
      exact ⟨rfl, rfl, rfl⟩

/-- Each placeholder among pieces is listed with the text on both of its sides. -/
theorem mem_occurrences_of_split (front : List Piece) (key : List Char) (behind : List Piece) :
    ⟨front.flatMap Piece.chars, key, behind.flatMap Piece.chars⟩ ∈
      occurrences (front ++ .hole key :: behind) := by
  induction front with
  | nil => exact List.mem_cons_self
  | cons p front ih => exact List.mem_append_right _ (List.mem_map_of_mem ih)

/-- Nothing else is listed. -/
theorem exists_split_of_mem_occurrences (h : o ∈ occurrences ps) :
    ∃ front behind, ps = front ++ .hole o.key :: behind ∧
      o.front = front.flatMap Piece.chars ∧ o.behind = behind.flatMap Piece.chars := by
  induction ps generalizing o with
  | nil => contradiction
  | cons p ps ih =>
      rcases List.mem_append.mp h with h | h
      · obtain ⟨rfl, hfront, hbehind⟩ := Piece.eq_hole_of_mem_occurrence? h
        exact ⟨[], ps, rfl, hfront, hbehind⟩
      · obtain ⟨other, hother, rfl⟩ := List.mem_map.mp h
        obtain ⟨front, behind, rfl, hfront, hbehind⟩ := ih hother
        exact ⟨p :: front, behind, rfl, congrArg (p.chars ++ ·) hfront, hbehind⟩

/-- **The placeholders among the pieces of a text** are those that stand in it. -/
theorem mem_occurrences_pieces_iff : o ∈ occurrences (pieces cs) ↔ StandsIn cs o := by
  constructor
  · intro h
    obtain ⟨front, behind, hpieces, hfront, hbehind⟩ := exists_split_of_mem_occurrences h
    constructor
    · rw [hfront, hbehind]
      conv_lhs => rw [← chars_pieces cs, hpieces]
      rw [List.flatMap_append, List.flatMap_cons, Piece.chars]
    · refine (scanned_pieces cs).inert (hpieces ▸ ?_)
      exact List.mem_append_right _ List.mem_cons_self
  · rintro ⟨rfl, hinert⟩
    have hmem := mem_occurrences_of_split (pieces o.front) o.key (pieces o.behind)
    rw [chars_pieces, chars_pieces] at hmem
    rwa [pieces_append_wrapChars_append hinert]

/-- The placeholders among pieces are listed from left to right. -/
theorem pairwise_occurrences (ps : List Piece) :
    (occurrences ps).Pairwise fun o other => o.front.length < other.front.length := by
  induction ps with
  | nil => exact List.Pairwise.nil
  | cons p ps ih =>
      rw [occurrences, List.pairwise_append]
      refine ⟨?_, ?_, ?_⟩
      · cases p with
        | char c => exact List.Pairwise.nil
        | hole key => exact List.pairwise_singleton _ _
      · refine List.pairwise_map.mpr (ih.imp fun hlt => ?_)
        simpa [shift] using hlt
      · intro o ho other hother
        obtain ⟨rfl, hfront, -⟩ := Piece.eq_hole_of_mem_occurrence? ho
        obtain ⟨next, -, rfl⟩ := List.mem_map.mp hother
        simp [hfront, shift, Piece.chars, wrapChars]

/-- The placeholders among the pieces of a text are all that stand in it, in their order. -/
theorem lists_occurrences (cs : List Char) : Lists cs (occurrences (pieces cs)) :=
  ⟨fun _ => mem_occurrences_pieces_iff, pairwise_occurrences _⟩

theorem map_key_occurrences (ps : List Piece) :
    (occurrences ps).map Occurrence.key = ps.filterMap Piece.key? := by
  induction ps with
  | nil => rfl
  | cons p ps ih =>
      have hshift : Occurrence.key ∘ shift p.chars = Occurrence.key := rfl
      rw [occurrences, List.map_append, List.map_map, hshift, ih]
      cases p <;> rfl

/-- The keys of a text are those of its occurrences of placeholders. -/
theorem keys_eq (text : String) : keys text = (occurrences (pieces text.toList)).map keyString := by
  calc keys text
      = ((pieces text.toList).filterMap Piece.key?).map String.ofList := List.map_filterMap.symm
    _ = ((occurrences (pieces text.toList)).map Occurrence.key).map String.ofList := by
      rw [map_key_occurrences]
    _ = (occurrences (pieces text.toList)).map keyString := List.map_map

/-- A text contains a placeholder exactly if one stands in it. -/
theorem contains_iff_exists {text : String} :
    contains text = true ↔ ∃ o, StandsIn text.toList o := by
  rw [contains_iff, keys_eq, ne_eq, List.map_eq_nil_iff, List.eq_nil_iff_forall_not_mem]
  simp only [mem_occurrences_pieces_iff, not_forall, not_not]

/-! ## Nested occurrences -/

/-- The keys of the occurrences behind a front that leaves some `${` open, where a number of
them is open at its start. -/
def keysInside (depth : Nat) (os : List Occurrence) : List (List Char) :=
  (os.filter fun o => 0 < openDepth depth o.front).map Occurrence.key

/-- Characters in front of all occurrences count by the number of `${` that they leave open. -/
theorem keysInside_map_shift {depth' : Nat} {before : List Char} {os : List Occurrence}
    (h : ∀ o ∈ os, openDepth depth (before ++ o.front) = openDepth depth' o.front) :
    keysInside depth (os.map (shift before)) = keysInside depth' os := by
  have hfilter : os.filter ((fun o => decide (0 < openDepth depth o.front)) ∘ shift before) =
      os.filter fun o => decide (0 < openDepth depth' o.front) :=
    List.filter_congr fun o ho => by rw [Function.comp_apply, shift, h o ho]
  rw [keysInside, List.filter_map, List.map_map, hfilter]
  rfl

/-- The front of an occurrence starts with a brace only if the pieces do. -/
theorem head?_eq_of_mem_occurrences (ho : o ∈ occurrences ps) {front : List Char}
    (hfront : o.front = '{' :: front) : ps.head? = some (.char '{') := by
  obtain ⟨before, behind, rfl, hbefore, -⟩ := exists_split_of_mem_occurrences ho
  rw [hfront] at hbefore
  cases before with
  | nil => contradiction
  | cons p before =>
      cases p with
      | char c =>
          obtain ⟨rfl, -⟩ := List.cons.inj hbefore
          rfl
      | hole key => exact absurd (List.cons.inj hbefore).1 (by decide)

/-- A placeholder in front is nested if some `${` is open there, and changes nothing behind it. -/
theorem keysInside_occurrences_hole {key : List Char} (hkey : ∀ c ∈ key, isKeyChar c = true)
    (depth : Nat) (ps : List Piece) :
    keysInside depth (occurrences (.hole key :: ps)) =
      if 0 < depth then key :: keysInside depth (occurrences ps)
      else keysInside depth (occurrences ps) := by
  have hbehind : keysInside depth ((occurrences ps).map (shift (wrapChars key))) =
      keysInside depth (occurrences ps) :=
    keysInside_map_shift fun o _ => openDepth_wrapChars_append hkey depth o.front
  have hfront : occurrences (.hole key :: ps) =
      ⟨[], key, ps.flatMap Piece.chars⟩ :: (occurrences ps).map (shift (wrapChars key)) := rfl
  rw [← hbehind, hfront, keysInside, List.filter_cons, openDepth, keysInside]
  by_cases hdepth : 0 < depth <;> simp [hdepth]

/-- **What is nested among pieces** stands behind a front that leaves some `${` open. -/
theorem nestedIn_eq (hps : Scanned ps) (depth : Nat) :
    nestedIn depth ps = keysInside depth (occurrences ps) := by
  fun_induction nestedIn depth ps with
  | case1 depth key rest hdepth ih =>
      rw [keysInside_occurrences_hole hps.1.2, if_pos hdepth, ih hps.2]
  | case2 depth key rest hdepth ih =>
      rw [keysInside_occurrences_hole hps.1.2, if_neg hdepth, ih hps.2]
  | case3 depth rest ih =>
      have hopener : occurrences (.char '$' :: .char '{' :: rest) =
          (occurrences rest).map (shift ['$', '{']) := List.map_map
      rw [hopener, ih hps.2.2]
      exact (keysInside_map_shift fun o _ => rfl).symm
  | case4 depth rest ih => exact (ih hps.2).trans (keysInside_map_shift fun o _ => rfl).symm
  | case5 depth c rest hopens hcloses ih =>
      refine (ih hps.2).trans (keysInside_map_shift fun o ho => ?_).symm
      rw [Piece.chars, List.singleton_append, openDepth]
      · rintro front rfl hfront
        obtain ⟨tail, rfl⟩ := List.head?_eq_some_iff.mp (head?_eq_of_mem_occurrences ho hfront)
        exact hopens tail rfl rfl
      · exact hcloses
  | case6 depth => rfl

/-! ## Fronts that leave some `${` open -/

/-- Every `${` of the text is closed behind it. -/
def AllClosed (cs : List Char) : Prop :=
  ∀ i, OpensAt (fun _ => true) cs i → OpensAt (closes 1) cs i

/-- In what is behind the first character every `${` is closed too. -/
theorem AllClosed.tail {c : Char} (h : AllClosed (c :: cs)) : AllClosed cs :=
  fun i hi => opensAt_cons_succ.mp (h (i + 1) (opensAt_cons_succ.mpr hi))

/-- If every `${` of a text is closed, and the text closes those that were open before it, none
is open at its end. -/
theorem AllClosed.openDepth_eq_zero (h : AllClosed cs)
    (hdepth : depth = 0 ∨ closes depth cs = true) : openDepth depth cs = 0 := by
  fun_induction openDepth depth cs with
  | case1 depth rest ih =>
      refine ih h.tail.tail (Or.inr ?_)
      rcases hdepth with rfl | hcloses
      · have hhere := h 0 (opensAt_opener.mpr (Or.inl ⟨rfl, rfl⟩))
        simpa [opensAt_opener] using hhere
      · exact hcloses
  | case2 depth rest ih =>
      refine ih h.tail ?_
      rcases hdepth with rfl | hcloses
      · exact Or.inl rfl
      · rw [closes, Bool.or_eq_true, decide_eq_true_eq] at hcloses
        exact hcloses.imp_left Nat.sub_eq_zero_of_le
  | case3 depth c rest hopens hcloses ih =>
      refine ih h.tail ?_
      rwa [closes] at hdepth
      · exact hopens
      · exact hcloses
  | case4 depth => simpa [closes] using hdepth

/-- Every `${` of a text is closed exactly if the count at its end is zero. -/
theorem allClosed_iff : AllClosed cs ↔ openDepth 0 cs = 0 := by
  constructor
  · exact fun h => h.openDepth_eq_zero (Or.inl rfl)
  · rintro hzero i ⟨front, rest, rfl, rfl, -⟩
    exact ⟨front, rest, rfl, rfl, closes_of_openDepth_eq_zero hzero (List.suffix_append front _)⟩

/-- **A text leaves some `${` open** exactly if the count at its end is not zero. -/
theorem leavesOpen_iff : LeavesOpen cs ↔ 0 < openDepth 0 cs := by
  rw [Nat.pos_iff_ne_zero, ne_eq, ← allClosed_iff, AllClosed]
  simp only [LeavesOpen, matched_iff, not_forall, exists_prop]

instance (cs : List Char) : Decidable (LeavesOpen cs) :=
  decidable_of_iff _ leavesOpen_iff.symm

/-- **The scanner is sound and complete.**  Let all the ways be listed to write a text as a front,
a placeholder with a key that is not empty and holds none of `$`, `{`, `}`, and what is behind it,
one for each place and from left to right.  The keys of the text are the keys of the list.  The text
contains a placeholder exactly if there is such a way.  The nested keys are those behind a front
that leaves some `${` open, when each `}` closes the latest open `${`, and closes nothing where
none is open. -/
theorem placeholders_are_found (text : String) :
    ∃ found, Lists text.toList found ∧
      keys text = found.map keyString ∧
      (contains text = true ↔ ∃ o, StandsIn text.toList o) ∧
      nestedKeys text = (found.filter fun o => LeavesOpen o.front).map keyString := by
  refine ⟨occurrences (pieces text.toList), lists_occurrences _, keys_eq text,
    contains_iff_exists, ?_⟩
  rw [nestedKeys, nestedIn_eq (scanned_pieces _), keysInside, List.map_map]
  simp only [leavesOpen_iff]
  rfl

/-- The first `${` is open around `a`; the `}` behind that closes it before `b`. -/
example : nestedKeys "$\x7bx ${a} \x7d ${b}" = ["a"] := by decide

end LayeredConfig.Placeholder
