import LayeredConfig.Placeholder.Scan
import Mathlib.Data.List.Basic

/-!
# Texts and their pieces

The scanner cuts a text into pieces from the right: a dollar sign looks at the
pieces behind it and completes a placeholder if a brace and a closed key stand
there.  Two facts carry everything that is said about placeholders later.

* `chars_pieces`: nothing is lost, the pieces of a text spell the text;
* `pieces_chars`: pieces that are *scanned*, in which no dollar sign could
  complete a placeholder any more, are the pieces of what they spell.

A placeholder that stands in a text can be cut out of it: whatever is written before it and
behind it, it is a piece (`pieces_append_wrapChars_append`).

A text is *inert* if it is not empty and holds none of `$`, `{`, `}`.  Keys are
inert, and so is every text that may be spliced into another one without making
or breaking a placeholder.
-/

namespace LayeredConfig.Placeholder

/-- A text that is not empty and holds none of `$`, `{`, `}`. -/
def Inert (cs : List Char) : Prop :=
  cs ≠ [] ∧ ∀ c ∈ cs, isKeyChar c = true

-- the characters of the list are gone through, not all characters that there are
instance (cs : List Char) : Decidable (Inert cs) :=
  have : Decidable (∀ c ∈ cs, isKeyChar c = true) := List.decidableBAll _ cs
  inferInstanceAs (Decidable (_ ∧ _))

/-- The characters of a key are none of the three that delimit placeholders. -/
theorem isKeyChar_iff {c : Char} :
    isKeyChar c = true ↔ c ≠ '$' ∧ c ≠ '{' ∧ c ≠ '}' := by
  simp [isKeyChar, and_assoc]

/-! ## What one character adds -/

/-- Only a dollar sign can complete a placeholder. -/
theorem cons_of_ne_dollar {c : Char} (hc : c ≠ '$') (ps : List Piece) :
    Piece.cons c ps = .char c :: ps := by
  unfold Piece.cons
  split
  · contradiction
  · rfl

/-- A dollar sign completes a placeholder only in front of a brace. -/
theorem cons_dollar_of_head {ps : List Piece} (hps : ps.head? ≠ some (.char '{')) :
    Piece.cons '$' ps = .char '$' :: ps := by
  unfold Piece.cons
  split
  · simp at hps
  · rfl

/-- In front of a brace the dollar sign completes the key that is closed there,
unless the key is empty. -/
theorem cons_dollar_brace (ps : List Piece) :
    Piece.cons '$' (.char '{' :: ps) =
      match closeKey ps with
      | some (k :: key, rest) => .hole (k :: key) :: rest
      | _ => .char '$' :: .char '{' :: ps := by
  rfl

/-- A closed key is spelled by the pieces that it was read from. -/
theorem closeKey_sound {ps rest : List Piece} {key : List Char}
    (h : closeKey ps = some (key, rest)) :
    ps = key.map .char ++ .char '}' :: rest ∧ ∀ c ∈ key, isKeyChar c = true := by
  induction ps generalizing key with
  | nil => simp [closeKey] at h
  | cons p ps ih =>
      cases p with
      | hole k => simp [closeKey] at h
      | char c =>
          rw [closeKey] at h
          split at h
          · next hc =>
              simp only [Option.some.injEq, Prod.mk.injEq] at h
              obtain ⟨rfl, rfl⟩ := h
              simp [hc]
          · split at h
            · next hkey =>
                obtain ⟨⟨key', rest'⟩, htail, heq⟩ := Option.map_eq_some_iff.mp h
                simp only [Prod.mk.injEq] at heq
                obtain ⟨rfl, rfl⟩ := heq
                obtain ⟨rfl, hchars⟩ := ih htail
                exact ⟨rfl, by simpa using ⟨hkey, hchars⟩⟩
            · simp at h

/-- A key in front of a closing brace is read up to that brace. -/
theorem closeKey_key {key : List Char} (hkey : ∀ c ∈ key, isKeyChar c = true)
    (rest : List Piece) :
    closeKey (key.map .char ++ .char '}' :: rest) = some (key, rest) := by
  induction key with
  | nil => simp [closeKey]
  | cons c key ih =>
      have hc : isKeyChar c = true := hkey c List.mem_cons_self
      have hne : c ≠ '}' := (isKeyChar_iff.mp hc).2.2
      have htail := ih fun d hd => hkey d (List.mem_cons_of_mem _ hd)
      simp [closeKey, hne, hc, htail]

/-- Putting a character in front of pieces puts it in front of their text. -/
theorem chars_cons (c : Char) (ps : List Piece) :
    (Piece.cons c ps).flatMap Piece.chars = c :: ps.flatMap Piece.chars := by
  by_cases hc : c = '$'
  · subst hc
    by_cases hps : ps.head? = some (.char '{')
    · obtain ⟨rest, rfl⟩ := List.head?_eq_some_iff.mp hps
      rw [cons_dollar_brace]
      split
      · next k key tail hclose =>
          obtain ⟨rfl, -⟩ := closeKey_sound hclose
          have hspell : ∀ l : List Char, (l.map Piece.char).flatMap Piece.chars = l := by
            intro l
            simp [List.flatMap_map, Piece.chars]
          simp [Piece.chars, wrapChars, hspell]
      · rfl
    · rw [cons_dollar_of_head hps]
      rfl
  · rw [cons_of_ne_dollar hc]
    rfl

/-- **Nothing is lost.**  The pieces of a text spell the text. -/
theorem chars_pieces (cs : List Char) : (pieces cs).flatMap Piece.chars = cs := by
  induction cs with
  | nil => rfl
  | cons c cs ih =>
      rw [pieces, List.foldr_cons, chars_cons]
      exact congrArg _ ih

/-! ## Scanned pieces -/

/-- Pieces as the scanner leaves them: keys are inert, and no dollar sign could
complete a placeholder with the pieces behind it. -/
def Scanned : List Piece → Prop
  | [] => True
  | .char c :: rest => Piece.cons c rest = .char c :: rest ∧ Scanned rest
  | .hole key :: rest => Inert key ∧ Scanned rest

/-- What is behind the first of scanned pieces is scanned. -/
theorem Scanned.tail {p : Piece} {ps : List Piece} (h : Scanned (p :: ps)) : Scanned ps := by
  cases p with
  | char c => exact h.2
  | hole key => exact h.2

/-- What follows scanned pieces is scanned. -/
theorem Scanned.of_append {ps qs : List Piece} (h : Scanned (ps ++ qs)) : Scanned qs := by
  induction ps with
  | nil => exact h
  | cons p ps ih => exact ih h.tail

/-- The key of a scanned placeholder is inert. -/
theorem Scanned.inert {ps : List Piece} {key : List Char} (h : Scanned ps)
    (hmem : .hole key ∈ ps) : Inert key := by
  obtain ⟨before, behind, rfl⟩ := List.append_of_mem hmem
  exact h.of_append.1

/-- The scanner keeps pieces scanned. -/
theorem Scanned.cons {ps : List Piece} (h : Scanned ps) (c : Char) :
    Scanned (Piece.cons c ps) := by
  by_cases hplain : Piece.cons c ps = .char c :: ps
  · rw [hplain]
    exact ⟨hplain, h⟩
  · -- the dollar sign took up a key, so what is left is a tail of scanned pieces
    have hc : c = '$' := by
      by_contra hc
      exact hplain (cons_of_ne_dollar hc ps)
    subst hc
    have hps : ps.head? = some (.char '{') := by
      by_contra hps
      exact hplain (cons_dollar_of_head hps)
    obtain ⟨rest, rfl⟩ := List.head?_eq_some_iff.mp hps
    rw [cons_dollar_brace] at hplain ⊢
    split
    · next k key tail hclose =>
        obtain ⟨rfl, hchars⟩ := closeKey_sound hclose
        refine ⟨⟨by simp, hchars⟩, ?_⟩
        have htail : Scanned (.char '}' :: tail) := h.2.of_append
        exact htail.2
    · next hclose =>
        refine absurd ?_ hplain
        split
        · next k key tail heq => exact absurd heq (hclose k key tail)
        · rfl

/-- The pieces of a text are scanned. -/
theorem scanned_pieces (cs : List Char) : Scanned (pieces cs) := by
  induction cs with
  | nil => trivial
  | cons c cs ih => exact Scanned.cons ih c

/-- A character other than the dollar sign is a piece of its own. -/
theorem pieces_cons_of_ne_dollar {c : Char} (hc : c ≠ '$') (cs : List Char) :
    pieces (c :: cs) = .char c :: pieces cs :=
  cons_of_ne_dollar hc (pieces cs)

/-- Characters of a key are pieces of their own. -/
theorem pieces_key_append {key : List Char} (hkey : ∀ c ∈ key, isKeyChar c = true)
    (cs : List Char) : pieces (key ++ cs) = key.map .char ++ pieces cs := by
  induction key with
  | nil => rfl
  | cons c key ih =>
      have hc : c ≠ '$' := (isKeyChar_iff.mp (hkey c List.mem_cons_self)).1
      have htail := ih fun d hd => hkey d (List.mem_cons_of_mem _ hd)
      rw [List.cons_append, pieces_cons_of_ne_dollar hc, htail]
      rfl

/-- A wrapped key is one placeholder. -/
theorem pieces_wrapChars_append {key : List Char} (hkey : Inert key) (cs : List Char) :
    pieces (wrapChars key ++ cs) = .hole key :: pieces cs := by
  have hbrace : pieces ('}' :: cs) = .char '}' :: pieces cs :=
    pieces_cons_of_ne_dollar (by decide) cs
  have hinner : pieces (key ++ '}' :: cs) = key.map .char ++ .char '}' :: pieces cs := by
    rw [pieces_key_append hkey.2, hbrace]
  have hopen : pieces ('{' :: (key ++ '}' :: cs)) =
      .char '{' :: (key.map .char ++ .char '}' :: pieces cs) := by
    rw [pieces_cons_of_ne_dollar (by decide), hinner]
  have hfront : wrapChars key ++ cs = '$' :: '{' :: (key ++ '}' :: cs) := by
    simp [wrapChars]
  obtain ⟨hne, hchars⟩ := hkey
  cases key with
  | nil => contradiction
  | cons k key =>
      calc pieces (wrapChars (k :: key) ++ cs)
          = Piece.cons '$' (pieces ('{' :: (k :: key ++ '}' :: cs))) := by rw [hfront]; rfl
        _ = .hole (k :: key) :: pieces cs := by
          rw [hopen, cons_dollar_brace, closeKey_key hchars]

/-! ## Where a text can be cut -/

/-- A key that is closed in front of pieces that close none is closed there already. -/
theorem closeKey_append {qs : List Piece} (hqs : closeKey qs = none) (ps : List Piece) :
    closeKey (ps ++ qs) = (closeKey ps).map fun (key, rest) => (key, rest ++ qs) := by
  induction ps with
  | nil => exact hqs
  | cons p ps ih =>
      cases p with
      | hole key => rfl
      | char c =>
          rw [List.cons_append, closeKey, closeKey]
          by_cases hclose : c = '}'
          · simp [hclose]
          by_cases hkey : isKeyChar c = true
          · simp only [hclose, hkey, if_true, if_false, ih, Option.map_map]
            rfl
          · simp [hclose, hkey]

/-- A character is put in front of pieces as if they ended before others that close no key and
that no dollar sign makes a placeholder of. -/
theorem cons_append {qs : List Piece} (hqs : closeKey qs = none)
    (hdollar : Piece.cons '$' qs = .char '$' :: qs) (c : Char) (ps : List Piece) :
    Piece.cons c (ps ++ qs) = Piece.cons c ps ++ qs := by
  by_cases hc : c = '$'
  · subst hc
    by_cases hps : ps.head? = some (.char '{')
    · obtain ⟨rest, rfl⟩ := List.head?_eq_some_iff.mp hps
      rw [List.cons_append, cons_dollar_brace, cons_dollar_brace, closeKey_append hqs]
      cases closeKey rest with
      | none => rfl
      | some found =>
          obtain ⟨key, tail⟩ := found
          cases key <;> rfl
    · cases ps with
      | nil => exact hdollar
      | cons p ps =>
          rw [cons_dollar_of_head hps, cons_dollar_of_head (by simpa using hps)]
          rfl
  · rw [cons_of_ne_dollar hc, cons_of_ne_dollar hc]
    rfl

/-- **Where a text can be cut**: in front of pieces that nothing before them can make a
placeholder of. -/
theorem pieces_append {cs : List Char} (hcs : closeKey (pieces cs) = none)
    (hdollar : Piece.cons '$' (pieces cs) = .char '$' :: pieces cs) (front : List Char) :
    pieces (front ++ cs) = pieces front ++ pieces cs := by
  induction front with
  | nil => rfl
  | cons c front ih =>
      calc pieces (c :: front ++ cs)
          = Piece.cons c (pieces (front ++ cs)) := rfl
        _ = Piece.cons c (pieces front) ++ pieces cs := by rw [ih, cons_append hcs hdollar]

/-- **A placeholder can be cut out** of any text. -/
theorem pieces_append_wrapChars_append {key : List Char} (hkey : Inert key)
    (front behind : List Char) :
    pieces (front ++ (wrapChars key ++ behind)) = pieces front ++ .hole key :: pieces behind := by
  rw [← pieces_wrapChars_append hkey]
  refine pieces_append ?_ ?_ front
  · rw [pieces_wrapChars_append hkey]
    rfl
  · rw [pieces_wrapChars_append hkey]
    exact cons_dollar_of_head (by simp)

/-- A last character that is no closing brace can be cut off. -/
theorem pieces_concat {c : Char} (hc : c ≠ '}') (front : List Char) :
    pieces (front ++ [c]) = pieces front ++ [.char c] := by
  have hlast : pieces [c] = [.char c] := by
    rw [pieces, List.foldr_cons, List.foldr_nil, Piece.cons]
    exact nofun
  have hclose : closeKey [.char c] = none := by
    simp [closeKey, hc]
  have hdollar : Piece.cons '$' [.char c] = .char '$' :: [.char c] := by
    by_cases hbrace : c = '{'
    · rw [hbrace]
      rfl
    · exact cons_dollar_of_head (by simpa using hbrace)
  rw [← hlast] at hclose hdollar
  rw [pieces_append hclose hdollar, hlast]

/-! ## Spelling pieces -/

/-- **Scanned pieces are what they spell.** -/
theorem pieces_chars {ps : List Piece} (h : Scanned ps) :
    pieces (ps.flatMap Piece.chars) = ps := by
  induction ps with
  | nil => rfl
  | cons p ps ih =>
      cases p with
      | char c =>
          have htail := ih h.2
          calc pieces (c :: ps.flatMap Piece.chars)
              = Piece.cons c (pieces (ps.flatMap Piece.chars)) := rfl
            _ = .char c :: ps := by rw [htail, h.1]
      | hole key =>
          rw [List.flatMap_cons, Piece.chars, pieces_wrapChars_append h.1, ih h.2]

/-! ## Keys -/

/-- The keys of a text are those of the placeholders among its pieces. -/
theorem mem_keys_iff {text key : String} :
    key ∈ keys text ↔ .hole key.toList ∈ pieces text.toList := by
  constructor
  · intro h
    obtain ⟨p, hp, hkey⟩ := List.mem_filterMap.mp h
    cases p with
    | char c => simp [Piece.key?] at hkey
    | hole k =>
        obtain rfl : String.ofList k = key := by simpa [Piece.key?] using hkey
        rwa [String.toList_ofList]
  · intro h
    exact List.mem_filterMap.mpr ⟨_, h, by simp [Piece.key?]⟩

theorem ofList_mem_keys {text : String} {key : List Char}
    (h : .hole key ∈ pieces text.toList) : String.ofList key ∈ keys text := by
  rwa [mem_keys_iff, String.toList_ofList]

/-- The keys of a text are inert. -/
theorem inert_of_mem_keys {text key : String} (h : key ∈ keys text) : Inert key.toList :=
  (scanned_pieces _).inert (mem_keys_iff.mp h)

/-- A key of a text is written in it, wrapped. -/
theorem exists_split_of_mem_keys {text key : String} (h : key ∈ keys text) :
    ∃ front behind, text.toList = front ++ (wrapChars key.toList ++ behind) := by
  obtain ⟨before, behind, hpieces⟩ := List.append_of_mem (mem_keys_iff.mp h)
  refine ⟨before.flatMap Piece.chars, behind.flatMap Piece.chars, ?_⟩
  rw [← chars_pieces text.toList, hpieces, List.flatMap_append, List.flatMap_cons, Piece.chars]

/-- A placeholder inside an unclosed `${` is among the pieces. -/
theorem hole_mem_of_mem_nestedIn {depth : Nat} {ps : List Piece} {key : List Char}
    (h : key ∈ nestedIn depth ps) : .hole key ∈ ps := by
  fun_induction nestedIn depth ps with
  | case1 depth k rest hd ih =>
      rcases List.mem_cons.mp h with rfl | h
      · exact List.mem_cons_self
      · exact List.mem_cons_of_mem _ (ih h)
  | case2 depth k rest hd ih => exact List.mem_cons_of_mem _ (ih h)
  | case3 depth rest ih => exact List.mem_cons_of_mem _ (List.mem_cons_of_mem _ (ih h))
  | case4 depth rest ih => exact List.mem_cons_of_mem _ (ih h)
  | case5 depth c rest _ _ ih => exact List.mem_cons_of_mem _ (ih h)
  | case6 depth => simp at h

/-- The nested keys of a text are among its keys. -/
theorem mem_keys_of_mem_nestedKeys {text key : String} (h : key ∈ nestedKeys text) :
    key ∈ keys text := by
  obtain ⟨cs, hcs, rfl⟩ := List.mem_map.mp h
  exact ofList_mem_keys (hole_mem_of_mem_nestedIn hcs)

/-- The pieces of a wrapped key are that one placeholder. -/
theorem pieces_wrap {key : String} (hkey : Inert key.toList) :
    pieces (wrap key).toList = [.hole key.toList] := by
  have h := pieces_wrapChars_append hkey []
  rw [List.append_nil] at h
  rw [wrap, String.toList_ofList, h]
  rfl

/-- A wrapped key holds that key. -/
theorem keys_wrap {key : String} (hkey : Inert key.toList) : keys (wrap key) = [key] := by
  rw [keys, pieces_wrap hkey]
  simp [Piece.key?]

/-- A wrapped key is a key of the text it makes. -/
theorem mem_keys_wrap {key : String} (hkey : Inert key.toList) : key ∈ keys (wrap key) := by
  rw [keys_wrap hkey]
  exact List.mem_singleton_self key

/-- A wrapped key has nothing nested in it. -/
theorem nestedKeys_wrap {key : String} (hkey : Inert key.toList) :
    nestedKeys (wrap key) = [] := by
  rw [nestedKeys, pieces_wrap hkey]
  rfl

/-- A text holds a placeholder exactly if it has a key. -/
theorem contains_iff {text : String} : contains text = true ↔ keys text ≠ [] := by
  simp only [contains, keys, List.any_eq_true, ne_eq, List.filterMap_eq_nil_iff, not_forall]
  constructor
  · rintro ⟨p, hp, hkey⟩
    obtain ⟨key, hkey⟩ := Option.isSome_iff_exists.mp hkey
    exact ⟨p, hp, by simp [hkey]⟩
  · rintro ⟨p, hp, hkey⟩
    refine ⟨p, hp, ?_⟩
    cases hk : p.key? with
    | none => simp [hk] at hkey
    | some key => rfl

/-- An inert key, wrapped, is a text with a placeholder. -/
theorem contains_wrap {key : String} (hkey : Inert key.toList) :
    contains (wrap key) = true := by
  exact contains_iff.mpr (List.ne_nil_of_mem (mem_keys_wrap hkey))

/-- A text without placeholders has no nested ones. -/
theorem nestedKeys_of_contains_eq_false {text : String} (h : contains text = false) :
    nestedKeys text = [] := by
  refine List.eq_nil_iff_forall_not_mem.mpr fun key hkey => ?_
  have hne : keys text ≠ [] := List.ne_nil_of_mem (mem_keys_of_mem_nestedKeys hkey)
  rw [contains_iff.mpr hne] at h
  contradiction

/-! ## Texts that are one placeholder -/

/-- The key of a text that is exactly one placeholder. -/
def soleKey? (text : String) : Option String :=
  match pieces text.toList with
  | [.hole key] => some (String.ofList key)
  | _ => none

/-- A text is exactly one placeholder if it is an inert key, wrapped. -/
theorem soleKey?_eq_some_iff {text key : String} :
    soleKey? text = some key ↔ text = wrap key ∧ Inert key.toList := by
  constructor
  · intro h
    unfold soleKey? at h
    split at h
    · next cs hps =>
        obtain rfl : String.ofList cs = key := Option.some.inj h
        have hspell : text.toList = wrapChars cs := by
          rw [← chars_pieces text.toList, hps]
          simp [Piece.chars]
        have hscan := scanned_pieces text.toList
        rw [hps] at hscan
        refine ⟨?_, ?_⟩
        · rw [wrap, String.toList_ofList, ← hspell, String.ofList_toList]
        · rw [String.toList_ofList]
          exact hscan.1
    · contradiction
  · rintro ⟨rfl, hkey⟩
    rw [soleKey?, pieces_wrap hkey]
    simp

end LayeredConfig.Placeholder
