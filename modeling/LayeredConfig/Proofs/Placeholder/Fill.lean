import LayeredConfig.Proofs.Placeholder.Splice

/-!
# Filling in placeholders all at once

`fill value text` puts values in the place of all placeholders of a text in one
go.  The resolver never does that: it replaces one key after the other, and pass
after pass.  The two agree where no placeholder is nested in another one and every
value is tidy, since then a splice neither makes a placeholder nor breaks one.

* `substitute_eq_fill`: replacing one key is filling in that key alone;
* `pieces_fill`: tidy values that are not empty are spliced in, so that filling in commutes
  with the scanner;
* `fill_fill`: filling in twice is filling in once, the first value counting;
* `TidyText.pieces_fill`: into a tidy text values are spliced even if they are empty.
-/

namespace LayeredConfig.Placeholder

/-- The pieces that take a piece's place: those of the value, if it is a
placeholder that has one. -/
def Piece.filled (value : String → Option String) : Piece → List Piece
  | .char c => [.char c]
  | .hole key =>
    match value (String.ofList key) with
    | some new => new.toList.map .char
    | none => [.hole key]

/-- The text with every placeholder that has a value replaced by it, all at once. -/
def fill (value : String → Option String) (text : String) : String :=
  String.ofList (((pieces text.toList).flatMap (Piece.filled value)).flatMap Piece.chars)

variable {value : String → Option String} {text : String}

/-- Filling in depends on the values of the keys alone. -/
theorem fill_congr {f g : String → Option String} {text : String}
    (h : ∀ key ∈ keys text, f key = g key) : fill f text = fill g text := by
  have hps : (pieces text.toList).flatMap (Piece.filled f) =
      (pieces text.toList).flatMap (Piece.filled g) := by
    refine List.flatMap_congr fun p hp => ?_
    cases p with
    | char c => rfl
    | hole key => rw [Piece.filled, Piece.filled, h _ (ofList_mem_keys hp)]
  rw [fill, fill, hps]

/-- Without values a text stays as it is. -/
theorem fill_of_forall_none {f : String → Option String} {text : String}
    (h : ∀ key ∈ keys text, f key = none) : fill f text = text := by
  have hnone : fill (fun _ => none) text = text := by
    have hstay : Piece.filled (fun _ => none) = fun p => [p] := by
      funext p
      cases p <;> rfl
    rw [fill, hstay, List.flatMap_singleton', chars_pieces, String.ofList_toList]
  rw [fill_congr h, hnone]

/-- Replacing one key is filling in that key alone. -/
theorem substitute_eq_fill (key new text : String) :
    substitute key new text = fill (fun k => if k = key then some new else none) text := by
  have hpiece : (fun p : Piece => if p = .hole key.toList then new.toList else p.chars) =
      fun p =>
        (Piece.filled (fun k => if k = key then some new else none) p).flatMap Piece.chars := by
    funext p
    cases p with
    | char c => simp [Piece.filled]
    | hole k =>
        by_cases hk : String.ofList k = key
        · have hlist : k = key.toList := by rw [← hk, String.toList_ofList]
          simp [Piece.filled, hlist, List.flatMap_map, Piece.chars]
        · have hlist : k ≠ key.toList := by
            rintro rfl
            exact hk String.ofList_toList
          simp [Piece.filled, hk, hlist]
  rw [substitute, hpiece, fill, List.flatMap_assoc]

/-! ## Tidy values -/

/-- The pieces of a value, or the placeholder of a key without one. -/
def Piece.filledPieces (value : String → Option String) : Piece → List Piece
  | .char c => [.char c]
  | .hole key =>
    match value (String.ofList key) with
    | some new => pieces new.toList
    | none => [.hole key]

theorem fill_eq_splice (value : String → Option String) (text : String) :
    fill value text = splice (Piece.filledPieces value) text := by
  have hpiece : (fun p => (Piece.filled value p).flatMap Piece.chars) =
      fun p => (Piece.filledPieces value p).flatMap Piece.chars := by
    funext p
    cases p with
    | char c => rfl
    | hole k =>
        rw [Piece.filled, Piece.filledPieces]
        cases value (String.ofList k) with
        | none => rfl
        | some new => simp [chars_pieces, List.flatMap_map, Piece.chars]
  rw [fill, splice, List.flatMap_assoc, hpiece, List.flatMap_assoc]

/-- The values of a text's keys are tidy, and hold none but the keys of the set. -/
def TidyValues (K : Set String) (value : String → Option String) (text : String) : Prop :=
  ∀ key ∈ keys text, ∀ new, value key = some new → TidyText K new

variable {K : Set String}

/-- Inert values are tidy, and hold no keys. -/
theorem tidyValues_of_inert
    (h : ∀ key ∈ keys text, ∀ new, value key = some new → Inert new.toList) :
    TidyValues ∅ value text := by
  intro key hkey new hval
  exact tidyText_of_key_chars (List.all_eq_true.mpr (h key hkey new hval).2)

namespace TidyValues

variable (hv : TidyValues K value text)

include hv

/-- What is put in for a placeholder is tidy. -/
theorem tidy {k : List Char} (hk : .hole k ∈ pieces text.toList) :
    ∀ q ∈ Piece.filledPieces value (.hole k), q.Tidy := by
  intro q hq
  rw [Piece.filledPieces] at hq
  cases hval : value (String.ofList k) with
  | none =>
      obtain rfl : q = .hole k := by simpa [hval] using hq
      exact (scanned_pieces text.toList).inert hk
  | some new =>
      rw [hval] at hq
      exact (hv _ (ofList_mem_keys hk) new hval).tidy q hq

/-- A placeholder that is put in is in the set, or it stayed for want of a value. -/
theorem mem_or_of_mem_filledPieces {k : List Char} (hk : .hole k ∈ pieces text.toList)
    {key : String} (hkey : .hole key.toList ∈ Piece.filledPieces value (.hole k)) :
    key ∈ K ∨ key ∈ keys text ∧ value key = none := by
  rw [Piece.filledPieces] at hkey
  cases hval : value (String.ofList k) with
  | none =>
      obtain rfl : key.toList = k := by simpa [hval] using hkey
      rw [String.ofList_toList] at hval
      exact Or.inr ⟨mem_keys_iff.mpr hk, hval⟩
  | some new =>
      rw [hval] at hkey
      exact Or.inl ((hv _ (ofList_mem_keys hk) new hval).keys_subset key (mem_keys_iff.mpr hkey))

/-- Tidy values that are not empty splice into a text. -/
theorem splices (hne : ∀ key ∈ keys text, value key ≠ some "") :
    Splices (Piece.filledPieces value) (pieces text.toList) where
  char _ := rfl
  tidy _ hk := hv.tidy hk
  nonempty k hk := by
    rw [Piece.filledPieces]
    cases hval : value (String.ofList k) with
    | none => exact List.cons_ne_nil _ _
    | some new =>
        refine pieces_ne_nil ?_
        rintro rfl
        exact hne _ (ofList_mem_keys hk) hval

end TidyValues

section Texts

variable (hn : nestedKeys text = []) (hv : TidyValues K value text)
  (hne : ∀ key ∈ keys text, value key ≠ some "")

include hn hv hne

/-- Filling in a text fills in its pieces. -/
theorem pieces_fill :
    pieces (fill value text).toList = (pieces text.toList).flatMap (Piece.filledPieces value) := by
  rw [fill_eq_splice, pieces_splice hn (hv.splices hne)]

/-- A text without nested placeholders has none after it is filled in. -/
theorem nestedKeys_fill : nestedKeys (fill value text) = [] := by
  rw [fill_eq_splice]
  exact nestedKeys_splice hn (hv.splices hne)

/-- A text that is not one placeholder is not one after it is filled in. -/
theorem soleKey?_fill (hsole : soleKey? text = none) : soleKey? (fill value text) = none := by
  rw [fill_eq_splice]
  exact soleKey?_splice hn (hv.splices hne) hsole

/-- The keys that are left are those without a value, and those that the values hold. -/
theorem mem_keys_fill {key : String} (hkey : key ∈ keys (fill value text)) :
    key ∈ K ∨ key ∈ keys text ∧ value key = none := by
  rw [fill_eq_splice] at hkey
  obtain ⟨k, hk, hmem⟩ := mem_keys_splice hn (hv.splices hne) hkey
  exact hv.mem_or_of_mem_filledPieces (mem_keys_iff.mp hk) hmem

/-- **Filling in twice is filling in once**, the first value counting, if the keys that the
first values hold have no values themselves. -/
theorem fill_fill {other : String → Option String} (hother : ∀ key ∈ K, other key = none) :
    fill other (fill value text) = fill (fun key => (value key).or (other key)) text := by
  have hpiece : ∀ p ∈ pieces text.toList,
      ((Piece.filledPieces value p).flatMap (Piece.filled other)).flatMap Piece.chars =
        (Piece.filled (fun key => (value key).or (other key)) p).flatMap Piece.chars := by
    intro p hp
    cases p with
    | char c => rfl
    | hole k =>
        rw [Piece.filledPieces, Piece.filled]
        cases hval : value (String.ofList k) with
        | none => simp [Piece.filled]
        | some new =>
            have hkeys := (hv _ (ofList_mem_keys hp) new hval).keys_subset
            have hstays : fill other new = new :=
              fill_of_forall_none fun key hkey => hother key (hkeys key hkey)
            have hchars := congrArg String.toList hstays
            rw [fill, String.toList_ofList] at hchars
            simp [hchars, List.flatMap_map, Piece.chars]
  rw [fill, pieces_fill hn hv hne, fill, List.flatMap_assoc, List.flatMap_assoc,
    List.flatMap_assoc]
  refine congrArg String.ofList (List.flatMap_congr fun p hp => ?_)
  rw [← List.flatMap_assoc, hpiece p hp]

end Texts

/-! ## Tidy values in tidy texts -/

namespace TidyText

variable (htext : TidyText K text) (hv : TidyValues K value text)

include htext hv

/-- **Tidy values are put into a tidy text piece by piece**, even if they are empty. -/
theorem pieces_fill :
    pieces (fill value text).toList = (pieces text.toList).flatMap (Piece.filledPieces value) := by
  have htidy : ∀ q ∈ (pieces text.toList).flatMap (Piece.filledPieces value), q.Tidy := by
    intro q hq
    obtain ⟨p, hp, hmem⟩ := List.mem_flatMap.mp hq
    cases p with
    | char c =>
        obtain rfl := List.mem_singleton.mp hmem
        exact htext.plain c hp
    | hole k => exact hv.tidy hp q hmem
  have hscan : Scanned ((pieces text.toList).flatMap (Piece.filledPieces value)) := by
    rw [← List.append_nil ((pieces text.toList).flatMap (Piece.filledPieces value))]
    exact scanned_tidy_append htidy trivial
  rw [fill_eq_splice, splice, String.toList_ofList, pieces_chars hscan]

/-- A tidy text stays tidy. -/
theorem fill : TidyText K (fill value text) := by
  have hpieces := htext.pieces_fill hv
  refine ⟨fun c hc => ?_, fun key hkey => ?_⟩
  · rw [hpieces] at hc
    obtain ⟨p, hp, hmem⟩ := List.mem_flatMap.mp hc
    cases p with
    | char d =>
        obtain rfl := Piece.char.inj (List.mem_singleton.mp hmem)
        exact htext.plain c hp
    | hole k => exact hv.tidy hp _ hmem
  · rw [mem_keys_iff, hpieces] at hkey
    obtain ⟨p, hp, hmem⟩ := List.mem_flatMap.mp hkey
    cases p with
    | char c => exact absurd (List.mem_singleton.mp hmem) (by simp)
    | hole k =>
        rcases hv.mem_or_of_mem_filledPieces hp hmem with hK | ⟨hstays, -⟩
        · exact hK
        · exact htext.keys_subset key hstays

end TidyText

end LayeredConfig.Placeholder
