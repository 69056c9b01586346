import LayeredConfig.Proofs.Placeholder.Fill

/-!
# Placeholders inside placeholders

The key of a placeholder may be put together with the help of other placeholders, as in
`${/hosts.${/env}}`.  Such a text is a *nest*: literals, and placeholders whose keys are
nests again.  In the text of a nest every `${` is closed, so the scanner, which only counts
what is open, sees the structure:

* `pieces_chars_append`: only placeholders without others inside are found;
* `nestedIn_pieces_append`: those of them that stand inside another one are the nested keys;
* `substitute_chars`: putting a text in the place of a key's placeholders does so in the nest.

Putting in goes from the inside out, and one key at a time.  What the nest comes to in the
end is told by `inlined` and `collapsed`, which replace the placeholders by recursion on the
nest, and putting in the value of one key does not change that (`inlined_fill`,
`collapsed_fill`).  What does change is the number of levels: once the nested keys are put
in, there is one level less (`levelsWithout_le`).
-/

namespace LayeredConfig.Placeholder

/-- Characters without any of `$`, `{`, `}`. -/
structure Literal where
  chars : List Char
  plain : ∀ c ∈ chars, isKeyChar c = true

/-- The literal of a text. -/
def Literal.ofText (text : String) (h : text.toList.all isKeyChar = true) : Literal :=
  ⟨text.toList, List.all_eq_true.mp h⟩

/-- A sequence of literals and placeholders, whose keys are such sequences again. -/
inductive Nest where
  | nil
  | literal (l : Literal) (rest : Nest)
  | hole (inside rest : Nest)

namespace Nest

/-- The characters of a nest. -/
def chars : Nest → List Char
  | nil => []
  | literal l rest => l.chars ++ rest.chars
  | hole inside rest => wrapChars inside.chars ++ rest.chars

/-- The text of a nest. -/
def text (n : Nest) : String :=
  String.ofList n.chars

/-- How many placeholders stand inside one another, counted at the deepest place. -/
def levels : Nest → Nat
  | nil => 0
  | literal _ rest => rest.levels
  | hole inside rest => max (inside.levels + 1) rest.levels

/-- The characters of a nest with every placeholder replaced, from the inside out, by what
`value` gives for its key. -/
def inlined (value : List Char → List Char) : Nest → List Char
  | nil => []
  | literal l rest => l.chars ++ rest.inlined value
  | hole inside rest => value (inside.inlined value) ++ rest.inlined value

/-- The characters of a nest with the placeholders inside others replaced in this way.  The
outermost ones stay. -/
def collapsed (value : List Char → List Char) : Nest → List Char
  | nil => []
  | literal l rest => l.chars ++ rest.collapsed value
  | hole inside rest => wrapChars (inside.inlined value) ++ rest.collapsed value

/-- The keys of all placeholders, each after what is inside it was replaced. -/
def keys (value : List Char → List Char) : Nest → List (List Char)
  | nil => []
  | literal _ rest => rest.keys value
  | hole inside rest => inside.inlined value :: (inside.keys value ++ rest.keys value)

/-- The keys of the placeholders that stand inside another one. -/
def innerKeys (value : List Char → List Char) : Nest → List (List Char)
  | nil => []
  | literal _ rest => rest.innerKeys value
  | hole inside rest => inside.keys value ++ rest.innerKeys value

/-- The keys of the outermost placeholders. -/
def outerKeys (value : List Char → List Char) : Nest → List (List Char)
  | nil => []
  | literal _ rest => rest.outerKeys value
  | hole inside rest => inside.inlined value :: rest.outerKeys value

/-! ## Nests without placeholders -/

section Flat

variable {n : Nest}

/-- Without placeholders there are only literals. -/
theorem plain_of_levels_eq_zero (h : n.levels = 0) : ∀ c ∈ n.chars, isKeyChar c = true := by
  induction n with
  | nil => exact nofun
  | literal l rest ih =>
      intro c hc
      rcases List.mem_append.mp hc with hc | hc
      · exact l.plain c hc
      · exact ih h c hc
  | hole inside rest => simp [levels] at h

/-- A placeholder shows in the characters. -/
theorem levels_eq_zero_of_plain (h : ∀ c ∈ n.chars, isKeyChar c = true) : n.levels = 0 := by
  induction n with
  | nil => rfl
  | literal l rest ih => exact ih fun c hc => h c (List.mem_append_right _ hc)
  | hole inside rest =>
      have hdollar : '$' ∈ (hole inside rest).chars := by simp [chars, wrapChars]
      exact absurd (h '$' hdollar) (by decide)

/-- Without placeholders there is nothing to replace. -/
theorem inlined_of_levels_eq_zero (h : n.levels = 0) (value : List Char → List Char) :
    n.inlined value = n.chars := by
  induction n with
  | nil => rfl
  | literal l rest ih => rw [inlined, chars, ih h]
  | hole inside rest => simp [levels] at h

/-- With one level of placeholders there is nothing inside one. -/
theorem collapsed_of_levels_le_one (h : n.levels ≤ 1) (value : List Char → List Char) :
    n.collapsed value = n.chars := by
  induction n with
  | nil => rfl
  | literal l rest ih => rw [collapsed, chars, ih h]
  | hole inside rest _ ih =>
      rw [levels, Nat.max_le] at h
      have hinside : inside.levels = 0 := by omega
      rw [collapsed, chars, ih h.2, inlined_of_levels_eq_zero hinside]

end Flat

/-! ## The scanner -/

/-- The pieces of the text of a nest.  A placeholder is a piece if there is none inside it
and its key is not empty. -/
def pieces : Nest → List Piece
  | nil => []
  | literal l rest => l.chars.map .char ++ rest.pieces
  | hole inside rest =>
    if Inert inside.chars then .hole inside.chars :: rest.pieces
    else .char '$' :: .char '{' :: (inside.pieces ++ .char '}' :: rest.pieces)

/-- The keys of the placeholders that are pieces. -/
def ready : Nest → List (List Char)
  | nil => []
  | literal _ rest => rest.ready
  | hole inside rest =>
    if Inert inside.chars then inside.chars :: rest.ready else inside.ready ++ rest.ready

/-- Those of them that stand inside another placeholder. -/
def nested : Nest → List (List Char)
  | nil => []
  | literal _ rest => rest.nested
  | hole inside rest => inside.ready ++ rest.nested

section Scanner

variable {n : Nest}

/-- A key that is not closed behind its first characters is not closed. -/
theorem closeKey_key_append {key : List Char} (hkey : ∀ c ∈ key, isKeyChar c = true)
    {ps : List Piece} (h : closeKey ps = none) : closeKey (key.map .char ++ ps) = none := by
  induction key with
  | nil => exact h
  | cons c key ih =>
      have hc : isKeyChar c = true := hkey c List.mem_cons_self
      have htail := ih fun d hd => hkey d (List.mem_cons_of_mem _ hd)
      simp [closeKey, hc, (isKeyChar_iff.mp hc).2.2, htail]

/-- No key is closed across a placeholder. -/
theorem closeKey_pieces_append (h : n.levels ≠ 0) (ps : List Piece) :
    closeKey (n.pieces ++ ps) = none := by
  induction n with
  | nil => exact absurd rfl h
  | literal l rest ih =>
      rw [pieces, List.append_assoc]
      exact closeKey_key_append l.plain (ih h)
  | hole inside rest =>
      rw [pieces]
      split
      · rfl
      · simp [closeKey, isKeyChar]

theorem pieces_of_levels_eq_zero (h : n.levels = 0) : n.pieces = n.chars.map .char := by
  induction n with
  | nil => rfl
  | literal l rest ih => rw [pieces, chars, ih h, List.map_append]
  | hole inside rest => simp [levels] at h

/-- A dollar sign in front of a nest in braces makes a placeholder only of a key. -/
theorem cons_dollar_pieces (h : ¬ Inert n.chars) (ps : List Piece) :
    Piece.cons '$' (.char '{' :: (n.pieces ++ .char '}' :: ps)) =
      .char '$' :: .char '{' :: (n.pieces ++ .char '}' :: ps) := by
  rw [cons_dollar_brace]
  by_cases hlevels : n.levels = 0
  · have hempty : n.chars = [] := by
      by_contra hne
      exact h ⟨hne, plain_of_levels_eq_zero hlevels⟩
    rw [pieces_of_levels_eq_zero hlevels, hempty]
    rfl
  · rw [closeKey_pieces_append hlevels]

/-- **The scanner sees the nest**, whatever follows it. -/
theorem pieces_chars_append (n : Nest) (cs : List Char) :
    Placeholder.pieces (n.chars ++ cs) = n.pieces ++ Placeholder.pieces cs := by
  induction n generalizing cs with
  | nil => rfl
  | literal l rest ih =>
      rw [chars, pieces, List.append_assoc, pieces_key_append l.plain, ih, List.append_assoc]
  | hole inside rest ihinside ihrest =>
      rw [chars, pieces]
      by_cases hkey : Inert inside.chars
      · rw [if_pos hkey, List.append_assoc, pieces_wrapChars_append hkey, ihrest]
        rfl
      · have hbehind : Placeholder.pieces (inside.chars ++ '}' :: (rest.chars ++ cs)) =
            inside.pieces ++ .char '}' :: (rest.pieces ++ Placeholder.pieces cs) := by
          rw [ihinside, pieces_cons_of_ne_dollar (by decide), ihrest]
        have hfront : wrapChars inside.chars ++ rest.chars ++ cs =
            '$' :: '{' :: (inside.chars ++ '}' :: (rest.chars ++ cs)) := by
          simp [wrapChars]
        calc Placeholder.pieces (wrapChars inside.chars ++ rest.chars ++ cs)
            = Piece.cons '$' (Placeholder.pieces
                ('{' :: (inside.chars ++ '}' :: (rest.chars ++ cs)))) := by rw [hfront]; rfl
          _ = .char '$' :: .char '{' ::
                (inside.pieces ++ .char '}' :: (rest.pieces ++ Placeholder.pieces cs)) := by
              rw [pieces_cons_of_ne_dollar (by decide), hbehind, cons_dollar_pieces hkey]
          _ = _ := by rw [if_neg hkey]; simp

theorem pieces_text (n : Nest) : Placeholder.pieces n.text.toList = n.pieces := by
  have h := n.pieces_chars_append []
  rw [List.append_nil] at h
  rw [text, String.toList_ofList, h]
  exact List.append_nil _

/-- Without placeholders none is a piece. -/
theorem ready_of_levels_eq_zero (h : n.levels = 0) : n.ready = [] := by
  induction n with
  | nil => rfl
  | literal l rest ih => exact ih h
  | hole inside rest => simp [levels] at h

/-- With one level of placeholders there is none inside another one. -/
theorem nested_of_levels_le_one (h : n.levels ≤ 1) : n.nested = [] := by
  induction n with
  | nil => rfl
  | literal l rest ih => exact ih h
  | hole inside rest _ ih =>
      rw [levels, Nat.max_le] at h
      rw [nested, ih h.2, ready_of_levels_eq_zero (by omega)]
      rfl

/-- Inside an open placeholder all pieces that are placeholders are nested ones. -/
theorem nestedIn_succ_pieces_append (n : Nest) (depth : Nat) (ps : List Piece) :
    nestedIn (depth + 1) (n.pieces ++ ps) = n.ready ++ nestedIn (depth + 1) ps := by
  induction n generalizing depth ps with
  | nil => rfl
  | literal l rest ih =>
      rw [pieces, ready, List.append_assoc, nestedIn_key_append l.plain, ih]
  | hole inside rest ihinside ihrest =>
      rw [pieces, ready]
      by_cases hkey : Inert inside.chars
      · rw [if_pos hkey, if_pos hkey, List.cons_append, nestedIn, if_pos (Nat.succ_pos depth),
          ihrest, List.cons_append]
      · rw [if_neg hkey, if_neg hkey, List.cons_append, List.cons_append, nestedIn,
          List.append_assoc, ihinside, List.cons_append, nestedIn, Nat.add_sub_cancel, ihrest,
          List.append_assoc]

/-- **The scanner's nested keys** are the keys of the placeholders that are pieces and stand
inside another one. -/
theorem nestedIn_pieces_append (n : Nest) (ps : List Piece) :
    nestedIn 0 (n.pieces ++ ps) = n.nested ++ nestedIn 0 ps := by
  induction n generalizing ps with
  | nil => rfl
  | literal l rest ih =>
      rw [pieces, nested, List.append_assoc, nestedIn_key_append l.plain, ih]
  | hole inside rest _ ihrest =>
      rw [pieces, nested]
      by_cases hkey : Inert inside.chars
      · rw [if_pos hkey, List.cons_append, nestedIn, if_neg (Nat.lt_irrefl 0), ihrest,
          ready_of_levels_eq_zero (levels_eq_zero_of_plain hkey.2), List.nil_append]
      · rw [if_neg hkey, List.cons_append, List.cons_append, nestedIn, List.append_assoc,
          nestedIn_succ_pieces_append, List.cons_append, nestedIn, Nat.add_sub_cancel, ihrest,
          List.append_assoc]

theorem nestedKeys_text (n : Nest) : nestedKeys n.text = n.nested.map String.ofList := by
  have h := n.nestedIn_pieces_append []
  rw [List.append_nil, nestedIn, List.append_nil] at h
  rw [nestedKeys, pieces_text, h]

end Scanner

/-! ## Putting in a value -/

/-- The nest with a literal in the place of every placeholder that has the key and no
placeholder inside it. -/
def fill (key : List Char) (new : Literal) : Nest → Nest
  | nil => nil
  | literal l rest => literal l (rest.fill key new)
  | hole inside rest =>
    if inside.chars = key then literal new (rest.fill key new)
    else hole (inside.fill key new) (rest.fill key new)

section Fill

variable {n : Nest} {key : List Char} {new : Literal}

theorem fill_of_levels_eq_zero (h : n.levels = 0) : n.fill key new = n := by
  induction n with
  | nil => rfl
  | literal l rest ih => rw [fill, ih h]
  | hole inside rest => simp [levels] at h

/-- **Substitution acts on the nest.** -/
theorem substitute_text (hkey : Inert key) (new : Literal) (n : Nest) :
    substitute (String.ofList key) (String.ofList new.chars) n.text = (n.fill key new).text := by
  have hchars : n.pieces.flatMap
      (fun p => if p = .hole key then new.chars else p.chars) = (n.fill key new).chars := by
    induction n with
    | nil => rfl
    | literal l rest ih =>
        rw [pieces, List.flatMap_append, ih, fill, chars]
        simp [List.flatMap_map, Piece.chars]
    | hole inside rest ihinside ihrest =>
        rw [pieces, fill]
        by_cases hinside : Inert inside.chars
        · have hstay : inside.fill key new = inside :=
            fill_of_levels_eq_zero (levels_eq_zero_of_plain hinside.2)
          rw [if_pos hinside, List.flatMap_cons, ihrest, hstay]
          by_cases heq : inside.chars = key
          · simp [heq, chars]
          · simp [heq, chars, Piece.chars]
        · have hne : inside.chars ≠ key := fun heq => hinside (heq ▸ hkey)
          rw [if_neg hinside, if_neg hne, chars, ← ihinside, ← ihrest]
          simp [Piece.chars, wrapChars]
  rw [substitute, pieces_text, String.toList_ofList, String.toList_ofList, hchars]
  rfl

variable {value : List Char → List Char} (hkey : ∀ c ∈ key, isKeyChar c = true)

include hkey

/-- A placeholder that is filled in has no other one inside it. -/
theorem inlined_eq_of_chars_eq (h : n.chars = key) : n.inlined value = key := by
  rw [inlined_of_levels_eq_zero (levels_eq_zero_of_plain (h ▸ hkey)), h]

/-- **Filling in a key's own value** changes nothing in what the nest comes to. -/
theorem inlined_fill (hnew : value key = new.chars) :
    (n.fill key new).inlined value = n.inlined value := by
  induction n with
  | nil => rfl
  | literal l rest ih => rw [fill, inlined, inlined, ih]
  | hole inside rest ihinside ihrest =>
      rw [fill]
      split
      · next h => rw [inlined, inlined, inlined_eq_of_chars_eq hkey h, hnew, ihrest]
      · rw [inlined, inlined, ihinside, ihrest]

/-- Filling in adds no key. -/
theorem keys_fill_subset (hnew : value key = new.chars) :
    (n.fill key new).keys value ⊆ n.keys value := by
  induction n with
  | nil => exact fun _ => id
  | literal l rest ih => exact ih
  | hole inside rest ihinside ihrest =>
      rw [fill]
      split
      · exact fun k hk => List.mem_cons_of_mem _ (List.mem_append_right _ (ihrest hk))
      · rw [keys, keys, inlined_fill hkey hnew]
        exact List.cons_subset_cons _ (List.append_subset.mpr
          ⟨fun k hk => List.mem_append_left _ (ihinside hk),
            fun k hk => List.mem_append_right _ (ihrest hk)⟩)

theorem innerKeys_fill_subset (hnew : value key = new.chars) :
    (n.fill key new).innerKeys value ⊆ n.innerKeys value := by
  induction n with
  | nil => exact fun _ => id
  | literal l rest ih => exact ih
  | hole inside rest _ ihrest =>
      rw [fill]
      split
      · exact fun k hk => List.mem_append_right _ (ihrest hk)
      · rw [innerKeys, innerKeys]
        exact List.append_subset.mpr
          ⟨fun k hk => List.mem_append_left _ (keys_fill_subset hkey hnew hk),
            fun k hk => List.mem_append_right _ (ihrest hk)⟩

/-- A key that no outermost placeholder has is filled in inside the others only. -/
theorem outer_fill (hnew : value key = new.chars) (houter : key ∉ n.outerKeys value) :
    (n.fill key new).collapsed value = n.collapsed value ∧
      (n.fill key new).outerKeys value = n.outerKeys value := by
  induction n with
  | nil => exact ⟨rfl, rfl⟩
  | literal l rest ih =>
      obtain ⟨hcollapsed, hkeys⟩ := ih houter
      exact ⟨by rw [fill, collapsed, collapsed, hcollapsed], hkeys⟩
  | hole inside rest _ ihrest =>
      rw [outerKeys, List.mem_cons, not_or] at houter
      obtain ⟨hcollapsed, hkeys⟩ := ihrest houter.2
      have hne : inside.chars ≠ key :=
        fun h => houter.1 (inlined_eq_of_chars_eq hkey h).symm
      rw [fill, if_neg hne, collapsed, collapsed, outerKeys, outerKeys, hcollapsed, hkeys,
        inlined_fill hkey hnew]
      exact ⟨rfl, rfl⟩

end Fill

/-! ## One level less -/

/-- The levels of a nest that are left once the placeholders with some keys are filled in. -/
def levelsWithout (gone : List (List Char)) : Nest → Nat
  | nil => 0
  | literal _ rest => rest.levelsWithout gone
  | hole inside rest =>
    max (if inside.chars ∈ gone then 0 else inside.levelsWithout gone + 1)
      (rest.levelsWithout gone)

section Levels

variable {n : Nest} {gone : List (List Char)}

theorem levelsWithout_nil (n : Nest) : n.levelsWithout [] = n.levels := by
  induction n with
  | nil => rfl
  | literal l rest ih => exact ih
  | hole inside rest ihinside ihrest =>
      rw [levelsWithout, levels, ihinside, ihrest, if_neg List.not_mem_nil]

/-- Filling in a key leaves no more levels than that. -/
theorem levelsWithout_fill_le (hgone : ∀ k ∈ gone, ∀ c ∈ k, isKeyChar c = true)
    (key : List Char) (new : Literal) :
    (n.fill key new).levelsWithout gone ≤ n.levelsWithout (key :: gone) := by
  induction n with
  | nil => exact Nat.le_refl 0
  | literal l rest ih => exact ih
  | hole inside rest ihinside ihrest =>
      rw [fill]
      by_cases heq : inside.chars = key
      · rw [if_pos heq]
        exact Nat.le_trans ihrest (Nat.le_max_right _ _)
      · rw [if_neg heq, levelsWithout, levelsWithout]
        refine Nat.max_le.mpr
          ⟨Nat.le_trans ?_ (Nat.le_max_left _ _), Nat.le_trans ihrest (Nat.le_max_right _ _)⟩
        by_cases hmem : inside.chars ∈ gone
        · -- the placeholder has a later key, so there is nothing in it to fill in
          have hstay : inside.fill key new = inside :=
            fill_of_levels_eq_zero (levels_eq_zero_of_plain (hgone _ hmem))
          rw [hstay, if_pos hmem]
          exact Nat.zero_le _
        · have hnot : inside.chars ∉ key :: gone :=
            fun h => (List.mem_cons.mp h).elim heq hmem
          rw [if_neg hnot]
          split
          · exact Nat.zero_le _
          · exact Nat.succ_le_succ ihinside

variable {value : List Char → List Char}

/-- Once all placeholders that are pieces are filled in, one level is gone. -/
theorem levelsWithout_lt (hempty : [] ∉ n.keys value) (hready : ∀ k ∈ n.ready, k ∈ gone) :
    n.levelsWithout gone ≤ n.levels - 1 := by
  induction n with
  | nil => exact Nat.le_refl 0
  | literal l rest ih => exact ih hempty hready
  | hole inside rest ihinside ihrest =>
      rw [keys, List.mem_cons, List.mem_append, not_or, not_or] at hempty
      obtain ⟨hkey, hinside, hrest⟩ := hempty
      rw [ready] at hready
      rw [levelsWithout, levels]
      by_cases hinert : Inert inside.chars
      · rw [if_pos hinert] at hready
        have hle := ihrest hrest fun k hk => hready k (List.mem_cons_of_mem _ hk)
        rw [if_pos (hready _ List.mem_cons_self)]
        omega
      · rw [if_neg hinert] at hready
        have hle := ihrest hrest fun k hk => hready k (List.mem_append_right _ hk)
        have hle' := ihinside hinside fun k hk => hready k (List.mem_append_left _ hk)
        have hpos : inside.levels ≠ 0 := by
          intro hlevels
          refine hinert ⟨fun hnil => hkey ?_, plain_of_levels_eq_zero hlevels⟩
          rw [inlined_of_levels_eq_zero hlevels, hnil]
        split <;> omega

/-- **Once the nested keys are filled in, one level is gone**, if there was more than one. -/
theorem levelsWithout_le (hempty : [] ∉ n.innerKeys value) (hnested : ∀ k ∈ n.nested, k ∈ gone)
    {bound : Nat} (hlevels : n.levels ≤ bound + 2) : n.levelsWithout gone ≤ bound + 1 := by
  induction n with
  | nil => exact Nat.zero_le _
  | literal l rest ih => exact ih hempty hnested hlevels
  | hole inside rest _ ihrest =>
      rw [innerKeys, List.mem_append, not_or] at hempty
      rw [nested] at hnested
      rw [levels, Nat.max_le] at hlevels
      have hinside := levelsWithout_lt hempty.1 fun k hk => hnested k (List.mem_append_left _ hk)
      have hrest := ihrest hempty.2 (fun k hk => hnested k (List.mem_append_right _ hk)) hlevels.2
      rw [levelsWithout, Nat.max_le]
      refine ⟨?_, hrest⟩
      split <;> omega

end Levels

/-- Placeholders that are pieces have their characters as keys. -/
theorem ready_subset_keys (n : Nest) (value : List Char → List Char) :
    ∀ key ∈ n.ready, Inert key ∧ key ∈ n.keys value := by
  induction n with
  | nil => exact nofun
  | literal l rest ih => exact ih
  | hole inside rest ihinside ihrest =>
      intro key hkey
      rw [ready] at hkey
      have hrest : key ∈ rest.ready → Inert key ∧ key ∈ (hole inside rest).keys value :=
        fun h => (ihrest key h).imp_right fun h =>
          List.mem_cons_of_mem _ (List.mem_append_right _ h)
      split at hkey
      · next hinert =>
          rcases List.mem_cons.mp hkey with rfl | hkey
          · refine ⟨hinert, List.mem_cons.mpr (Or.inl ?_)⟩
            exact (inlined_eq_of_chars_eq hinert.2 rfl).symm
          · exact hrest hkey
      · rcases List.mem_append.mp hkey with hkey | hkey
        · exact (ihinside key hkey).imp_right fun h =>
            List.mem_cons_of_mem _ (List.mem_append_left _ h)
        · exact hrest hkey

/-- Nested keys are keys of placeholders inside others. -/
theorem nested_subset_innerKeys (n : Nest) (value : List Char → List Char) :
    ∀ key ∈ n.nested, Inert key ∧ key ∈ n.innerKeys value := by
  induction n with
  | nil => exact nofun
  | literal l rest ih => exact ih
  | hole inside rest _ ihrest =>
      intro key hkey
      rcases List.mem_append.mp hkey with hkey | hkey
      · exact (inside.ready_subset_keys value key hkey).imp_right (List.mem_append_left _)
      · exact (ihrest key hkey).imp_right (List.mem_append_right _)

end Nest

end LayeredConfig.Placeholder
