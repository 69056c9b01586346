import LayeredConfig.Proofs.Placeholder.Fill

/-!
# Replacing the placeholders of one key

The resolver fills in one key after the other, each time in the text as the keys before left it.
A value that was put in may itself hold placeholders, or be empty, or make a placeholder
together with what stands next to it.  So the text that the next key meets need not have the
placeholders that it had at first.

What is put in for one key leaves alone

* the ends of a text, unless it starts and ends as a placeholder does (`Flanked.substitute`);
* the placeholders of other keys, and that there is something beside them, as long as it is not
  empty (`Inside.substitute`);
* that a text is not one placeholder, if it is tidy and not empty (`Apart.substitute`), or tidy
  and put into a tidy text with a character beside the placeholders (`Lettered.substitute`).
-/

namespace LayeredConfig.Placeholder

/-- The characters of a piece, with others in the place of the placeholder of a key. -/
def Piece.charsWith (key new : List Char) (p : Piece) : List Char :=
  if p = .hole key then new else p.chars

@[simp] theorem Piece.charsWith_char (key new : List Char) (c : Char) :
    Piece.charsWith key new (.char c) = [c] :=
  if_neg (by simp)

@[simp] theorem Piece.charsWith_self (key new : List Char) :
    Piece.charsWith key new (.hole key) = new :=
  if_pos rfl

theorem Piece.charsWith_of_ne {key new : List Char} {p : Piece} (h : p ≠ .hole key) :
    Piece.charsWith key new p = p.chars :=
  if_neg h

variable {key new text : String}

theorem toList_substitute (key new text : String) :
    (substitute key new text).toList =
      (pieces text.toList).flatMap (Piece.charsWith key.toList new.toList) := by
  rw [substitute, String.toList_ofList]
  rfl

/-- A lone placeholder gives way to the text that is put in. -/
theorem substitute_wrap (hkey : Inert key.toList) (new : String) :
    substitute key new (wrap key) = new := by
  refine String.toList_inj.mp ?_
  rw [toList_substitute, pieces_wrap hkey, List.flatMap_singleton, Piece.charsWith_self]

/-! ## Tidy values -/

variable {K : Set String}

/-- A tidy text is a tidy value, whatever text it is put into. -/
theorem TidyText.values (hnew : TidyText K new) (key text : String) :
    TidyValues K (fun k => if k = key then some new else none) text := by
  intro k _ own hval
  obtain ⟨-, rfl⟩ := Option.ite_some_none_eq_some.mp hval
  exact hnew

/-- A tidy text with a character beside its placeholders. -/
structure Lettered (K : Set String) (text : String) : Prop extends TidyText K text where
  letter : ∃ c, .char c ∈ pieces text.toList

theorem not_lettered_wrap (hkey : Inert key.toList) : ¬ Lettered K (wrap key) := by
  rintro ⟨-, c, hc⟩
  rw [pieces_wrap hkey] at hc
  simp at hc

/-- The character stays, whatever tidy text is put in. -/
theorem Lettered.substitute (h : Lettered K text) (hnew : TidyText K new) (key : String) :
    Lettered K (substitute key new text) := by
  obtain ⟨htidy, c, hc⟩ := h
  have hv := hnew.values key text
  rw [substitute_eq_fill]
  refine ⟨htidy.fill hv, c, ?_⟩
  rw [htidy.pieces_fill hv]
  exact List.mem_flatMap.mpr ⟨_, hc, List.mem_singleton_self _⟩

/-- A text that is not one placeholder and in which nothing is nested. -/
structure Apart (K : Set String) (text : String) : Prop where
  flat : nestedKeys text = []
  sole : soleKey? text = none
  keys_subset : ∀ key ∈ keys text, key ∈ K

theorem not_apart_wrap (hkey : Inert key.toList) : ¬ Apart K (wrap key) := by
  intro h
  have hsole := h.sole
  rw [soleKey?_eq_some_iff.mpr ⟨rfl, hkey⟩] at hsole
  contradiction

/-- What is tidy and not empty brings nothing together. -/
theorem Apart.substitute (h : Apart K text) (hnew : TidyText K new) (hne : new ≠ "")
    (key : String) : Apart K (substitute key new text) := by
  have hv := hnew.values key text
  have hfull : ∀ k ∈ keys text, (if k = key then some new else none) ≠ some "" := by
    intro k _ hval
    exact hne (Option.ite_some_none_eq_some.mp hval).2
  rw [substitute_eq_fill]
  refine ⟨nestedKeys_fill h.flat hv hfull, soleKey?_fill h.flat hv hfull h.sole, fun k hk => ?_⟩
  rcases mem_keys_fill h.flat hv hfull hk with hK | ⟨hold, -⟩
  · exact hK
  · exact h.keys_subset k hold

/-! ## The ends of a text -/

/-- A text that does not start or does not end as a placeholder does. -/
def Flanked (text : String) : Prop :=
  text.toList.head? ≠ some '$' ∨ text.toList.getLast? ≠ some '}'

theorem not_flanked_wrap (key : String) : ¬ Flanked (wrap key) := by
  have hlast : (wrapChars key.toList).getLast? = some '}' := List.getLast?_concat
  rw [Flanked, wrap, String.toList_ofList, hlast]
  simp [wrapChars]

/-- The ends of a text that are no ends of a placeholder stay. -/
theorem Flanked.substitute (h : Flanked text) (key new : String) :
    Flanked (substitute key new text) := by
  rw [Flanked, toList_substitute]
  rcases h with hfront | hback
  · left
    cases htext : text.toList with
    | nil => exact nofun
    | cons c cs =>
        have hc : c ≠ '$' := by simpa [htext] using hfront
        rw [pieces_cons_of_ne_dollar hc, List.flatMap_cons, Piece.charsWith_char]
        simpa using hc
  · right
    rcases List.eq_nil_or_concat text.toList with htext | ⟨cs, c, htext⟩
    · rw [htext]
      exact nofun
    · rw [List.concat_eq_append] at htext
      have hc : c ≠ '}' := by simpa [htext] using hback
      rw [htext, pieces_concat hc, List.flatMap_append, List.flatMap_singleton,
        Piece.charsWith_char]
      simpa using hc

/-! ## The placeholders of other keys -/

/-- A placeholder of the key stands in the text, and there is something beside it. -/
def Inside (key text : String) : Prop :=
  ∃ front behind, text.toList = front ++ (wrapChars key.toList ++ behind) ∧ front ++ behind ≠ []

theorem Inside.ne_wrap (h : Inside key text) : text ≠ wrap key := by
  rintro rfl
  obtain ⟨front, behind, htext, hne⟩ := h
  have hlength := congrArg List.length htext
  rw [wrap, String.toList_ofList] at hlength
  simp only [List.length_append] at hlength
  refine hne (List.append_eq_nil_iff.mpr ⟨?_, ?_⟩) <;>
    exact List.length_eq_zero_iff.mp (by omega)

/-- The placeholders of a text that is not one placeholder stand inside it. -/
theorem inside_of_mem_keys (hkey : key ∈ keys text) (hsole : soleKey? text = none) :
    Inside key text := by
  obtain ⟨front, behind, htext⟩ := exists_split_of_mem_keys hkey
  refine ⟨front, behind, htext, fun hnil => ?_⟩
  obtain ⟨rfl, rfl⟩ := List.append_eq_nil_iff.mp hnil
  rw [List.nil_append, List.append_nil] at htext
  have hwrap : text = wrap key := by rw [wrap, ← htext, String.ofList_toList]
  rw [soleKey?_eq_some_iff.mpr ⟨hwrap, inert_of_mem_keys hkey⟩] at hsole
  contradiction

/-- What is put in leaves something of what is not empty, if it is not empty itself. -/
theorem replaced_ne_nil (hnew : new ≠ "") {cs : List Char} (hcs : cs ≠ []) :
    (pieces cs).flatMap (Piece.charsWith key.toList new.toList) ≠ [] := by
  cases hps : pieces cs with
  | nil =>
      have hspell := chars_pieces cs
      rw [hps] at hspell
      exact absurd hspell.symm hcs
  | cons p ps =>
      rw [List.flatMap_cons]
      intro hnil
      have hfirst := (List.append_eq_nil_iff.mp hnil).1
      rw [Piece.charsWith] at hfirst
      split at hfirst
      · exact hnew (String.toList_eq_nil_iff.mp hfirst)
      · cases p <;> simp [Piece.chars, wrapChars] at hfirst

/-- **A placeholder of another key stays where it is**, and inside the text if what is put in is
not empty. -/
theorem Inside.substitute {other : String} (h : Inside other text) (hother : Inert other.toList)
    (hne : other ≠ key) (hnew : new ≠ "") : Inside other (substitute key new text) := by
  obtain ⟨front, behind, htext, hbeside⟩ := h
  have hstays : Piece.hole other.toList ≠ .hole key.toList := by
    simpa [String.toList_inj] using hne
  refine ⟨(pieces front).flatMap (Piece.charsWith key.toList new.toList),
    (pieces behind).flatMap (Piece.charsWith key.toList new.toList), ?_, ?_⟩
  · rw [toList_substitute, htext, pieces_append_wrapChars_append hother, List.flatMap_append,
      List.flatMap_cons, Piece.charsWith_of_ne hstays, Piece.chars]
  · intro hnil
    obtain ⟨hfront, hbehind⟩ := List.append_eq_nil_iff.mp hnil
    refine hbeside (List.append_eq_nil_iff.mpr ⟨?_, ?_⟩) <;> by_contra hcs
    · exact replaced_ne_nil hnew hcs hfront
    · exact replaced_ne_nil hnew hcs hbehind

/-- Different keys, of which each has a placeholder inside the text. -/
structure AllInside (ks : List String) (text : String) : Prop where
  nodup : ks.Nodup
  inert : ∀ key ∈ ks, Inert key.toList
  inside : ∀ key ∈ ks, Inside key text

theorem not_allInside_wrap {ks : List String} : ¬ AllInside (key :: ks) (wrap key) :=
  fun h => (h.inside key List.mem_cons_self).ne_wrap rfl

theorem AllInside.tail {ks : List String} (h : AllInside (key :: ks) text) :
    AllInside ks text where
  nodup := (List.nodup_cons.mp h.nodup).2
  inert k hk := h.inert k (List.mem_cons_of_mem _ hk)
  inside k hk := h.inside k (List.mem_cons_of_mem _ hk)

/-- What is put in for the first key leaves the others inside, if it is not empty. -/
theorem AllInside.substitute {ks : List String} (h : AllInside (key :: ks) text)
    (hnew : new ≠ "") : AllInside ks (substitute key new text) where
  nodup := h.tail.nodup
  inert := h.tail.inert
  inside k hk := by
    have hother : k ≠ key := by
      rintro rfl
      exact (List.nodup_cons.mp h.nodup).1 hk
    exact (h.tail.inside k hk).substitute (h.tail.inert k hk) hother hnew

/-- Each key is listed once. -/
theorem nodup_eraseDups (l : List String) : l.eraseDups.Nodup := by
  induction hlength : l.length using Nat.strongRecOn generalizing l with
  | ind n ih =>
      cases l with
      | nil => exact List.nodup_nil
      | cons a rest =>
          rw [List.eraseDups_cons]
          refine List.nodup_cons.mpr ⟨fun hmem => ?_, ?_⟩
          · simpa using List.mem_eraseDups.mp hmem
          · refine ih _ ?_ _ rfl
            rw [← hlength]
            exact Nat.lt_succ_of_le (List.length_filter_le _ _)

/-- The keys of a text that is not one placeholder are all inside it. -/
theorem allInside_keys (hsole : soleKey? text = none) : AllInside (keys text).eraseDups text where
  nodup := nodup_eraseDups _
  inert _ hkey := inert_of_mem_keys (List.mem_eraseDups.mp hkey)
  inside _ hkey := inside_of_mem_keys (List.mem_eraseDups.mp hkey) hsole

end LayeredConfig.Placeholder
