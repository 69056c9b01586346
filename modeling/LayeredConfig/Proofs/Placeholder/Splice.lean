import LayeredConfig.Proofs.Placeholder.Pieces

/-!
# Splicing into a text

Placeholders of a text give way to other texts: one key after the other or all at once, to
texts without placeholders or to texts with placeholders of their own.  In each case the
characters between the placeholders stay, and pieces take the place of a placeholder.

Pieces are tidy if they open and close nothing: each one is a character of a key or a whole
placeholder.  Where nothing is nested in a text and tidy pieces are spliced in, at least one for
each placeholder, no placeholder is made and none is broken.

* `pieces_splice`: the scanner finds what was spliced in;
* `nestedKeys_splice`: nothing gets nested;
* `soleKey?_splice`: a text that is not one placeholder does not become one.

A text is tidy if its pieces are (`TidyText`).
-/

namespace LayeredConfig.Placeholder

/-- A piece that opens and closes nothing. -/
def Piece.Tidy : Piece → Prop
  | .char c => isKeyChar c = true
  | .hole key => Inert key

/-- The text with other pieces in the place of its pieces. -/
def splice (put : Piece → List Piece) (text : String) : String :=
  String.ofList (((pieces text.toList).flatMap put).flatMap Piece.chars)

/-- Characters stay, and tidy pieces take the place of a placeholder, at least one. -/
structure Splices (put : Piece → List Piece) (ps : List Piece) : Prop where
  char : ∀ c, put (.char c) = [.char c]
  nonempty : ∀ key, .hole key ∈ ps → put (.hole key) ≠ []
  tidy : ∀ key, .hole key ∈ ps → ∀ q ∈ put (.hole key), q.Tidy

variable {put : Piece → List Piece} {ps qs : List Piece}

/-- What splices into pieces splices into what is behind the first one. -/
theorem Splices.tail {p : Piece} (h : Splices put (p :: ps)) : Splices put ps where
  char := h.char
  nonempty key hmem := h.nonempty key (List.mem_cons_of_mem _ hmem)
  tidy key hmem := h.tidy key (List.mem_cons_of_mem _ hmem)

/-! ## Opening and closing -/

/-- A character that neither opens nor closes leaves the depth as it is. -/
theorem nestedIn_char_cons {c : Char} (hopen : c = '$' → ps.head? ≠ some (.char '{'))
    (hclose : c ≠ '}') (depth : Nat) : nestedIn depth (.char c :: ps) = nestedIn depth ps := by
  rw [nestedIn]
  · rintro rest rfl hc
    exact hopen hc rfl
  · exact hclose

/-- A character of a key opens and closes nothing. -/
theorem nestedIn_key_cons {c : Char} (hc : isKeyChar c = true) (depth : Nat)
    (ps : List Piece) : nestedIn depth (.char c :: ps) = nestedIn depth ps := by
  obtain ⟨hdollar, -, hclose⟩ := isKeyChar_iff.mp hc
  exact nestedIn_char_cons (fun h => absurd h hdollar) hclose depth

/-- Inert characters open and close nothing. -/
theorem nestedIn_key_append {new : List Char} (hnew : ∀ c ∈ new, isKeyChar c = true)
    (depth : Nat) (ps : List Piece) :
    nestedIn depth (new.map .char ++ ps) = nestedIn depth ps := by
  induction new with
  | nil => rfl
  | cons c new ih =>
      have hc : isKeyChar c = true := hnew c List.mem_cons_self
      have htail := ih fun d hd => hnew d (List.mem_cons_of_mem _ hd)
      rw [List.map_cons, List.cons_append, nestedIn_key_cons hc, htail]

/-- Outside of all placeholders, tidy pieces nest nothing. -/
theorem nestedIn_tidy_append (hqs : ∀ q ∈ qs, q.Tidy) (ps : List Piece) :
    nestedIn 0 (qs ++ ps) = nestedIn 0 ps := by
  induction qs with
  | nil => rfl
  | cons q qs ih =>
      have htail := ih fun r hr => hqs r (List.mem_cons_of_mem _ hr)
      cases q with
      | char c => rw [List.cons_append, nestedIn_key_cons (hqs _ List.mem_cons_self), htail]
      | hole key => rw [List.cons_append, nestedIn, if_neg (Nat.lt_irrefl 0), htail]

/-- Tidy pieces stay scanned in front of scanned pieces. -/
theorem scanned_tidy_append (hqs : ∀ q ∈ qs, q.Tidy) (hs : Scanned ps) : Scanned (qs ++ ps) := by
  induction qs with
  | nil => exact hs
  | cons q qs ih =>
      have htail := ih fun r hr => hqs r (List.mem_cons_of_mem _ hr)
      have hq : q.Tidy := hqs q List.mem_cons_self
      cases q with
      | char c => exact ⟨cons_of_ne_dollar (isKeyChar_iff.mp hq).1 _, htail⟩
      | hole key => exact ⟨hq, htail⟩

/-- Pieces without nested placeholders have none behind their first one. -/
theorem exists_nestedIn_tail {depth : Nat} {p : Piece} (hn : nestedIn depth (p :: ps) = []) :
    ∃ depth', nestedIn depth' ps = [] := by
  cases p with
  | hole key =>
      rw [nestedIn] at hn
      split at hn
      · simp at hn
      · exact ⟨depth, hn⟩
  | char c =>
      by_cases hclose : c = '}'
      · subst hclose
        exact ⟨depth - 1, hn⟩
      by_cases hopen : c = '$' ∧ ps.head? = some (.char '{')
      · obtain ⟨rfl, hps⟩ := hopen
        obtain ⟨rest, rfl⟩ := List.head?_eq_some_iff.mp hps
        exact ⟨depth + 1, hn⟩
      · rw [nestedIn_char_cons (fun hc hps => hopen ⟨hc, hps⟩) hclose] at hn
        exact ⟨depth, hn⟩

/-! ## Splicing into pieces -/

/-- What is spliced into starts with a brace only where a brace stood. -/
theorem Splices.head_ne_brace (h : Splices put ps) (hps : ps.head? ≠ some (.char '{')) :
    (ps.flatMap put).head? ≠ some (.char '{') := by
  cases ps with
  | nil => simp
  | cons p ps =>
      rw [List.flatMap_cons]
      cases p with
      | char c => simpa [h.char] using hps
      | hole key =>
          obtain ⟨q, qs, hput⟩ := List.exists_cons_of_ne_nil (h.nonempty key List.mem_cons_self)
          have hq : q.Tidy := h.tidy key List.mem_cons_self q (by simp [hput])
          cases q with
          | char c => simpa [hput] using (isKeyChar_iff.mp hq).2.1
          | hole k => simp [hput]

/-- Inside an unclosed `${` without nested placeholders the same key is closed
before and after splicing. -/
theorem closeKey_flatMap (hchar : ∀ c, put (.char c) = [.char c]) {depth : Nat}
    (hn : nestedIn (depth + 1) ps = []) :
    closeKey (ps.flatMap put) =
      (closeKey ps).map fun (key, rest) => (key, rest.flatMap put) := by
  induction ps with
  | nil => rfl
  | cons p ps ih =>
      cases p with
      | hole key => simp [nestedIn] at hn
      | char c =>
          rw [List.flatMap_cons, hchar, List.singleton_append, closeKey, closeKey]
          by_cases hclose : c = '}'
          · simp [hclose]
          by_cases hkey : isKeyChar c = true
          · rw [nestedIn_key_cons hkey] at hn
            simp only [hclose, hkey, if_true, if_false, ih hn, Option.map_map]
            rfl
          · simp [hclose, hkey]

/-- A dollar sign that completes no placeholder completes none after splicing:
in front of a brace the same key is closed as before, and no brace comes anew. -/
theorem Splices.cons_dollar {depth : Nat} (h : Splices put ps)
    (hs : Piece.cons '$' ps = .char '$' :: ps) (hn : nestedIn depth (.char '$' :: ps) = []) :
    Piece.cons '$' (ps.flatMap put) = .char '$' :: ps.flatMap put := by
  by_cases hps : ps.head? = some (.char '{')
  · obtain ⟨rest, rfl⟩ := List.head?_eq_some_iff.mp hps
    have hn' : nestedIn (depth + 1) rest = [] := hn
    have hfront : (Piece.char '{' :: rest).flatMap put = .char '{' :: rest.flatMap put := by
      rw [List.flatMap_cons, h.char]
      rfl
    rw [hfront, cons_dollar_brace, closeKey_flatMap h.char hn']
    rw [cons_dollar_brace] at hs
    cases hclose : closeKey rest with
    | none => rfl
    | some found =>
        obtain ⟨key, tail⟩ := found
        cases key with
        | nil => rfl
        | cons k key => simp [hclose] at hs
  · exact cons_dollar_of_head (h.head_ne_brace hps)

/-- **Splicing keeps pieces scanned**, if no placeholder is nested. -/
theorem Splices.scanned {depth : Nat} (h : Splices put ps) (hs : Scanned ps)
    (hn : nestedIn depth ps = []) : Scanned (ps.flatMap put) := by
  induction ps generalizing depth with
  | nil => trivial
  | cons p ps ih =>
      obtain ⟨depth', hn'⟩ := exists_nestedIn_tail hn
      have hrest := ih h.tail hs.tail hn'
      rw [List.flatMap_cons]
      cases p with
      | char c =>
          rw [h.char]
          by_cases hc : c = '$'
          · subst hc
            exact ⟨h.tail.cons_dollar hs.1 hn, hrest⟩
          · exact ⟨cons_of_ne_dollar hc _, hrest⟩
      | hole key => exact scanned_tidy_append (h.tidy key List.mem_cons_self) hrest

/-- Splicing nests nothing. -/
theorem Splices.nestedIn_eq_nil {depth : Nat} (h : Splices put ps)
    (hn : nestedIn depth ps = []) : nestedIn depth (ps.flatMap put) = [] := by
  fun_induction nestedIn depth ps with
  | case1 => simp at hn
  | case2 depth key rest hd ih =>
      obtain rfl : depth = 0 := Nat.eq_zero_of_not_pos hd
      rw [List.flatMap_cons, nestedIn_tidy_append (h.tidy key List.mem_cons_self)]
      exact ih h.tail hn
  | case3 depth rest ih =>
      have hrest := ih h.tail.tail hn
      rw [List.flatMap_cons, List.flatMap_cons, h.char, h.char]
      exact hrest
  | case4 depth rest ih =>
      have hrest := ih h.tail hn
      rw [List.flatMap_cons, h.char]
      exact hrest
  | case5 depth c rest hopen hclose ih =>
      have hhead : c = '$' → (rest.flatMap put).head? ≠ some (.char '{') := by
        intro hc
        refine h.tail.head_ne_brace fun hps => ?_
        obtain ⟨tail, rfl⟩ := List.head?_eq_some_iff.mp hps
        exact hopen tail rfl hc
      rw [List.flatMap_cons, h.char, List.singleton_append, nestedIn_char_cons hhead hclose]
      exact ih h.tail hn
  | case6 depth => rfl

/-- Every piece leaves something behind. -/
theorem Splices.put_ne_nil {p : Piece} (h : Splices put (p :: ps)) : put p ≠ [] := by
  cases p with
  | char c => simp [h.char]
  | hole key => exact h.nonempty key List.mem_cons_self

/-- One placeholder alone is left only where one stood alone. -/
theorem Splices.eq_hole {key : List Char} (h : Splices put ps)
    (heq : ps.flatMap put = [.hole key]) : ∃ k, ps = [.hole k] := by
  cases ps with
  | nil => simp at heq
  | cons p ps =>
      have hps : ps = [] := by
        by_contra hne
        obtain ⟨q, qs, rfl⟩ := List.exists_cons_of_ne_nil hne
        have hlen := congrArg List.length heq
        have hp := List.length_pos_iff.mpr h.put_ne_nil
        have hq := List.length_pos_iff.mpr h.tail.put_ne_nil
        simp only [List.flatMap_cons, List.length_append, List.length_singleton] at hlen
        omega
      subst hps
      cases p with
      | char c => simp [h.char] at heq
      | hole k => exact ⟨k, rfl⟩

/-! ## Splicing into texts -/

/-- Nothing is nested in a text exactly if nothing is nested in its pieces. -/
theorem nestedKeys_eq_nil_iff {text : String} :
    nestedKeys text = [] ↔ nestedIn 0 (pieces text.toList) = [] := by
  simp [nestedKeys]

section Texts

variable {text : String} (hn : nestedKeys text = []) (h : Splices put (pieces text.toList))

include hn h

/-- **The scanner finds what was spliced in.** -/
theorem pieces_splice : pieces (splice put text).toList = (pieces text.toList).flatMap put := by
  have hscan := h.scanned (scanned_pieces text.toList) (nestedKeys_eq_nil_iff.mp hn)
  rw [splice, String.toList_ofList, pieces_chars hscan]

/-- A text without nested placeholders has none after splicing. -/
theorem nestedKeys_splice : nestedKeys (splice put text) = [] := by
  rw [nestedKeys_eq_nil_iff, pieces_splice hn h]
  exact h.nestedIn_eq_nil (nestedKeys_eq_nil_iff.mp hn)

/-- A text that is not one placeholder is not one after splicing. -/
theorem soleKey?_splice (hsole : soleKey? text = none) : soleKey? (splice put text) = none := by
  rw [soleKey?, pieces_splice hn h]
  split
  · next key hps =>
      obtain ⟨k, hold⟩ := h.eq_hole hps
      rw [soleKey?, hold] at hsole
      contradiction
  · rfl

/-- The keys after splicing are among what was put in for the keys. -/
theorem mem_keys_splice {key : String} (hkey : key ∈ keys (splice put text)) :
    ∃ k ∈ keys text, .hole key.toList ∈ put (.hole k.toList) := by
  rw [mem_keys_iff, pieces_splice hn h] at hkey
  obtain ⟨p, hp, hmem⟩ := List.mem_flatMap.mp hkey
  cases p with
  | char c => simp [h.char] at hmem
  | hole k =>
      refine ⟨String.ofList k, ofList_mem_keys hp, ?_⟩
      rwa [String.toList_ofList]

end Texts

/-! ## Tidy texts -/

/-- A text of key characters and placeholders, whose keys are in the set. -/
structure TidyText (K : Set String) (text : String) : Prop where
  plain : ∀ c, .char c ∈ pieces text.toList → isKeyChar c = true
  keys_subset : ∀ key ∈ keys text, key ∈ K

section Tidy

variable {K : Set String} {key text : String}

theorem TidyText.tidy (h : TidyText K text) : ∀ p ∈ pieces text.toList, p.Tidy := by
  intro p hp
  cases p with
  | char c => exact h.plain c hp
  | hole k => exact (scanned_pieces text.toList).inert hp

/-- Nothing is nested in a tidy text. -/
theorem TidyText.nestedKeys_eq_nil (h : TidyText K text) : nestedKeys text = [] := by
  have hnested := nestedIn_tidy_append h.tidy []
  rw [List.append_nil] at hnested
  exact nestedKeys_eq_nil_iff.mpr hnested

/-- A text of key characters is tidy. -/
theorem tidyText_of_key_chars (h : text.toList.all isKeyChar = true) : TidyText K text := by
  have hpieces : pieces text.toList = text.toList.map .char := by
    simpa [pieces] using pieces_key_append (List.all_eq_true.mp h) []
  refine ⟨fun c hc => ?_, fun key hkey => ?_⟩
  · rw [hpieces] at hc
    obtain ⟨d, hd, heq⟩ := List.mem_map.mp hc
    exact Piece.char.inj heq ▸ List.all_eq_true.mp h d hd
  · rw [mem_keys_iff, hpieces] at hkey
    simp at hkey

/-- A placeholder alone is tidy. -/
theorem tidyText_wrap (hkey : Inert key.toList) (hK : key ∈ K) : TidyText K (wrap key) := by
  refine ⟨fun c hc => ?_, fun k hk => ?_⟩
  · rw [pieces_wrap hkey] at hc
    simp at hc
  · rw [keys_wrap hkey] at hk
    rwa [List.mem_singleton.mp hk]

/-- A text that is not empty has a piece. -/
theorem pieces_ne_nil (h : text ≠ "") : pieces text.toList ≠ [] := by
  intro hnil
  have hspell := chars_pieces text.toList
  rw [hnil] at hspell
  exact h (String.toList_eq_nil_iff.mp hspell.symm)

end Tidy

end LayeredConfig.Placeholder
