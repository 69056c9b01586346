import LayeredConfig.Proofs.Placeholder.Substitute

/-!
# One key after the other, or all at once

Putting in one key after the other is not the same as putting in all of them at once: a value
can bring in a placeholder of a key that is still to come, or break one up.  It is the same if
no key that is still to come gains or loses a placeholder (`Undisturbed`).

* `count_keys_le_fill`: filling in other keys takes no placeholder of a key away;
* `substitute_fill`: one key after others is all of them at once, if none was added either;
* `undisturbed_of_tidy`: tidy values with placeholders of other keys add none;
* `eq_nil_of_fill_eq_wrap`: if nothing but one placeholder is left, its key is the last one.
-/

namespace LayeredConfig.Placeholder

variable {value : String → Option String} {key new text : String}

/-! ## Placeholders of one key -/

theorem count_keys (key text : String) :
    (keys text).count key = (pieces text.toList).count (.hole key.toList) := by
  rw [keys, List.count_filterMap, List.count]
  refine List.countP_congr fun p _ => ?_
  cases p with
  | char c => simp [Piece.key?]
  | hole k => simp [Piece.key?, ← String.toList_inj]

section Pieces

variable {k : List Char} (hk : Inert k)

include hk

/-- Placeholders that were put together with other pieces are still there in the text. -/
theorem count_hole_le (front : List Char) (ps : List Piece) :
    ps.count (.hole k) ≤ (pieces (front ++ ps.flatMap Piece.chars)).count (.hole k) := by
  induction ps generalizing front with
  | nil => exact Nat.zero_le _
  | cons p ps ih =>
      rw [List.flatMap_cons]
      by_cases hp : p = .hole k
      · subst hp
        have hrest := ih []
        rw [List.nil_append] at hrest
        rw [Piece.chars, pieces_append_wrapChars_append hk, List.count_append,
          List.count_cons_self, List.count_cons_self]
        omega
      · rw [List.count_cons_of_ne hp, ← List.append_assoc]
        exact ih _

/-- **If no placeholder was added**, those that are there are the ones that were put in. -/
theorem flatMap_replaced {new : List Char} (front : List Char) {ps : List Piece}
    (hcount : (pieces (front ++ ps.flatMap Piece.chars)).count (.hole k) = ps.count (.hole k)) :
    (pieces (front ++ ps.flatMap Piece.chars)).flatMap (Piece.charsWith k new) =
      front ++ ps.flatMap (Piece.charsWith k new) := by
  -- a text without the placeholder stays
  have hstay : ∀ cs : List Char, (pieces cs).count (.hole k) = 0 →
      (pieces cs).flatMap (Piece.charsWith k new) = cs := by
    intro cs hzero
    have hnone : .hole k ∉ pieces cs := List.count_eq_zero.mp hzero
    refine Eq.trans (List.flatMap_congr fun p hp => ?_) (chars_pieces cs)
    refine Piece.charsWith_of_ne ?_
    rintro rfl
    exact hnone hp
  induction ps generalizing front with
  | nil =>
      rw [List.flatMap_nil, List.append_nil] at hcount ⊢
      rw [List.flatMap_nil, List.append_nil]
      exact hstay front hcount
  | cons p ps ih =>
      rw [List.flatMap_cons] at hcount ⊢
      rw [List.flatMap_cons]
      by_cases hp : p = .hole k
      · subst hp
        have hrest := count_hole_le hk [] ps
        have hsame := ih []
        rw [List.nil_append] at hrest hsame
        rw [Piece.chars, pieces_append_wrapChars_append hk, List.count_append,
          List.count_cons_self, List.count_cons_self] at hcount
        rw [Piece.chars, pieces_append_wrapChars_append hk, List.flatMap_append,
          List.flatMap_cons, Piece.charsWith_self, hstay front (by omega), hsame (by omega),
          List.nil_append]
      · rw [List.count_cons_of_ne hp, ← List.append_assoc] at hcount
        rw [Piece.charsWith_of_ne hp, ← List.append_assoc, ih _ hcount, List.append_assoc]

end Pieces

/-- Pieces give way to as many placeholders of a key as there were, if each piece does. -/
theorem count_flatMap {put : Piece → List Piece} {p : Piece} {ps : List Piece}
    (h : ∀ q ∈ ps, (put q).count p = [q].count p) : (ps.flatMap put).count p = ps.count p := by
  induction ps with
  | nil => rfl
  | cons q ps ih =>
      rw [List.flatMap_cons, List.count_append, h q List.mem_cons_self,
        ih fun r hr => h r (List.mem_cons_of_mem _ hr), ← List.count_append,
        List.singleton_append]

/-- A key without a value keeps its placeholders, whatever is put in for others. -/
theorem count_filled (hnone : value key = none) (ps : List Piece) :
    (ps.flatMap (Piece.filled value)).count (.hole key.toList) = ps.count (.hole key.toList) := by
  refine count_flatMap fun p _ => ?_
  cases p with
  | char c => rfl
  | hole k =>
      rw [Piece.filled]
      cases hval : value (String.ofList k) with
      | none => rfl
      | some new =>
          have hk : k ≠ key.toList := by
            rintro rfl
            rw [String.ofList_toList, hnone] at hval
            contradiction
          rw [List.count_eq_zero.mpr (by simp), List.count_eq_zero.mpr (by simpa using hk.symm)]

/-- Filling in other keys takes away no placeholder of a key. -/
theorem count_keys_le_fill (hkey : Inert key.toList) (hnone : value key = none) :
    (keys text).count key ≤ (keys (fill value text)).count key := by
  have h := count_hole_le hkey [] ((pieces text.toList).flatMap (Piece.filled value))
  rw [List.nil_append, count_filled hnone] at h
  rwa [count_keys, count_keys, fill, String.toList_ofList]

/-- **One key after others is all at once**, if the values of the others brought in no
placeholder of that key. -/
theorem substitute_fill (hkey : Inert key.toList) (hnone : value key = none)
    (hcount : (keys (fill value text)).count key = (keys text).count key) :
    substitute key new (fill value text) =
      fill (fun k => if k = key then some new else value k) text := by
  rw [count_keys, count_keys, fill, String.toList_ofList,
    ← count_filled hnone (pieces text.toList)] at hcount
  have hreplaced := @flatMap_replaced _ hkey new.toList [] _ hcount
  rw [List.nil_append, List.nil_append] at hreplaced
  have hpiece : (fun p => (Piece.filled value p).flatMap
        (Piece.charsWith key.toList new.toList)) =
      fun p => (Piece.filled (fun k => if k = key then some new else value k) p).flatMap
        Piece.chars := by
    funext p
    cases p with
    | char c => simp [Piece.filled, Piece.chars]
    | hole k =>
        by_cases hk : String.ofList k = key
        · have hlist : k = key.toList := by rw [← hk, String.toList_ofList]
          simp [Piece.filled, hnone, hlist, List.flatMap_map, Piece.chars]
        · have hlist : Piece.hole k ≠ .hole key.toList := by
            rintro heq
            obtain rfl := Piece.hole.inj heq
            exact hk String.ofList_toList
          simp only [Piece.filled, if_neg hk]
          cases value (String.ofList k) <;>
            simp [Piece.charsWith_of_ne hlist, List.flatMap_map, Piece.chars]
  refine String.toList_inj.mp ?_
  rw [toList_substitute, fill, String.toList_ofList, hreplaced, List.flatMap_assoc, hpiece, fill,
    String.toList_ofList, List.flatMap_assoc]

/-! ## Key after key -/

/-- The values of some keys only. -/
def valuesOf (ks : List String) (value : String → Option String) (key : String) : Option String :=
  if key ∈ ks then value key else none

/-- What is put in for the keys in front of one that has a value neither adds a placeholder of
that key nor takes one away. -/
def Undisturbed (value : String → Option String) (text : String) : Prop :=
  ∀ front key behind, (keys text).eraseDups = front ++ key :: behind → value key ≠ none →
    (keys (fill (valuesOf front value) text)).count key = (keys text).count key

/-- Keys behind others are keys of the text that the others are not. -/
theorem of_eraseDups_keys_eq_append {front behind : List String}
    (hsplit : (keys text).eraseDups = front ++ behind) :
    behind.Nodup ∧ ∀ key ∈ behind, key ∈ keys text ∧ Inert key.toList ∧ key ∉ front := by
  have hnodup := nodup_eraseDups (keys text)
  rw [hsplit] at hnodup
  obtain ⟨-, hbehind, hdisjoint⟩ := List.nodup_append.mp hnodup
  refine ⟨hbehind, fun key hkey => ?_⟩
  have hmem : key ∈ keys text := by
    rw [← List.mem_eraseDups, hsplit]
    exact List.mem_append_right front hkey
  exact ⟨hmem, inert_of_mem_keys hmem, fun hfront => hdisjoint key hfront key hkey rfl⟩

theorem fill_valuesOf_concat (front : List String) (hnone : value key = none) :
    fill (valuesOf (front ++ [key]) value) text = fill (valuesOf front value) text := by
  refine fill_congr fun k _ => ?_
  by_cases hk : k = key
  · subst hk
    simp [valuesOf, hnone]
  · simp [valuesOf, hk]

theorem fill_valuesOf_keys {ks : List String} (hks : ∀ key ∈ keys text, key ∈ ks) :
    fill (valuesOf ks value) text = fill value text :=
  fill_congr fun _ hkey => if_pos (hks _ hkey)

/-- One key more is put in, in a text that it was undisturbed in. -/
theorem substitute_fill_valuesOf (hkey : Inert key.toList) {front : List String}
    (hnew : key ∉ front)
    (hcount : (keys (fill (valuesOf front value) text)).count key = (keys text).count key)
    {new : String} (hvalue : value key = some new) :
    substitute key new (fill (valuesOf front value) text) =
      fill (valuesOf (front ++ [key]) value) text := by
  rw [substitute_fill hkey (if_neg hnew) hcount]
  refine fill_congr fun k _ => ?_
  by_cases hk : k = key
  · subst hk
    simp [valuesOf, hvalue]
  · simp [valuesOf, hk]

/-- **Tidy values leave the keys of a text undisturbed**, if they are not empty and hold no
placeholders of these keys. -/
theorem undisturbed_of_tidy {K : Set String} (hflat : nestedKeys text = [])
    (hv : TidyValues K value text) (hne : ∀ key ∈ keys text, value key ≠ some "")
    (hfresh : ∀ key ∈ keys text, key ∉ K) : Undisturbed value text := by
  intro front key behind hsplit _
  obtain ⟨hkey, -, hnew⟩ := (of_eraseDups_keys_eq_append hsplit).2 key List.mem_cons_self
  -- the values of the keys in front are values of the text
  have hsome : ∀ k new, valuesOf front value k = some new → value k = some new := by
    intro k new hval
    rw [valuesOf] at hval
    split at hval
    · exact hval
    · contradiction
  have hv' : TidyValues K (valuesOf front value) text :=
    fun k hk new hval => hv k hk new (hsome k new hval)
  have hne' : ∀ k ∈ keys text, valuesOf front value k ≠ some "" :=
    fun k hk hval => hne k hk (hsome k "" hval)
  rw [count_keys, count_keys, pieces_fill hflat hv' hne']
  refine count_flatMap fun p hp => ?_
  cases p with
  | char c => rfl
  | hole k =>
      rw [Piece.filledPieces]
      cases hval : valuesOf front value (String.ofList k) with
      | none => rfl
      | some new =>
          have hother : k ≠ key.toList := by
            rintro rfl
            rw [String.ofList_toList, valuesOf, if_neg hnew] at hval
            contradiction
          have hcarried : .hole key.toList ∉ pieces new.toList := by
            intro hmem
            have htidy := hv' _ (ofList_mem_keys hp) new hval
            exact hfresh key hkey (htidy.keys_subset key (mem_keys_iff.mpr hmem))
          rw [List.count_eq_zero.mpr hcarried, List.count_eq_zero.mpr (by simpa using hother.symm)]

/-- **The last key.**  If the keys in front leave nothing but the placeholder of the next one,
there are no keys behind that one. -/
theorem eq_nil_of_fill_eq_wrap {front behind : List String}
    (hsplit : (keys text).eraseDups = front ++ key :: behind)
    (hwrap : fill (valuesOf front value) text = wrap key) : behind = [] := by
  obtain ⟨hnodup, hbehind⟩ := of_eraseDups_keys_eq_append hsplit
  refine List.eq_nil_iff_forall_not_mem.mpr fun other hother => ?_
  -- a key behind still has its placeholders in the text
  obtain ⟨hmem, hinert, hnew⟩ := hbehind other (List.mem_cons_of_mem _ hother)
  have hnone : valuesOf front value other = none := if_neg hnew
  have hcount : (keys text).count other ≤ (keys (fill (valuesOf front value) text)).count other :=
    count_keys_le_fill hinert hnone
  have hstays : other ∈ keys (fill (valuesOf front value) text) :=
    List.count_pos_iff.mp (Nat.lt_of_lt_of_le (List.count_pos_iff.mpr hmem) hcount)
  rw [hwrap, keys_wrap (hbehind key List.mem_cons_self).2.1] at hstays
  obtain rfl := List.mem_singleton.mp hstays
  exact (List.nodup_cons.mp hnodup).1 hother

end LayeredConfig.Placeholder
