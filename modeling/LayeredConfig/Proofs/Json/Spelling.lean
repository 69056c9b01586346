import LayeredConfig.Json.Printer
import LayeredConfig.Json.Reader
import LayeredConfig.Proofs.Tree.Entries

/-!
# Texts that spell a value

JSON leaves room for layout: between its tokens any number of blanks may stand.
`Spells n v cs` says that the text `cs` is a value `v` in some layout, with scalars as
they are printed and with at most `n` containers inside one another.

The reader is the inverse of every layout.  It looks one character past a numeral, so
this is said of a spelling in front of any text that continues no numeral, and that is
what a comma, a bracket, a blank or the end of the text is.

* `stringRest_escape` and `cutNumeral_integerText`: the tokens are read back;
* `container_intercalate`: so are parts between commas, if every part is;
* `value?_of_spells`: so is every spelling.
-/

namespace LayeredConfig.Json

/-- What may follow a value: nothing, or a character that continues no numeral. -/
def Stops (cs : List Char) : Prop :=
  ∀ c ∈ cs.head?, c.isDigit = false ∧ c ≠ '.' ∧ c ≠ 'e' ∧ c ≠ 'E'

/-! ## Strings -/

theorem hexValue?_hexDigit : ∀ n < 16, Text.hexValue? (Text.hexDigit n) = some n := by
  decide

/-- The four digits of a control character stand for it. -/
theorem unicodeEscape_control {c : Char} (hc : c.toNat < 0x20) (rest : List Char) :
    unicodeEscape ('0' :: '0' :: Text.hexDigit (c.toNat / 16) :: Text.hexDigit (c.toNat % 16) ::
      rest) = some (c, rest) := by
  have hhigh := hexValue?_hexDigit (c.toNat / 16) (by omega)
  have hlow := hexValue?_hexDigit (c.toNat % 16) (by omega)
  have hzero : Text.hexValue? '0' = some 0 := by decide
  have hvalue : ((0 * 16 + 0) * 16 + c.toNat / 16) * 16 + c.toNat % 16 = c.toNat := by omega
  have hfour : fourHex ('0' :: '0' :: Text.hexDigit (c.toNat / 16) ::
      Text.hexDigit (c.toNat % 16) :: rest) = some (c.toNat, rest) := by
    simp only [fourHex, hzero, hhigh, hlow, Option.bind_eq_bind, Option.bind_some, hvalue]
  have hsurrogate : ¬ (0xD800 ≤ c.toNat ∧ c.toNat < 0xDC00) := by omega
  have hhalf : ¬ (0xDC00 ≤ c.toNat ∧ c.toNat < 0xE000) := by omega
  simp only [unicodeEscape, hfour, Option.bind_eq_bind, Option.bind_some, if_neg hsurrogate,
    if_neg hhalf, Char.ofNat_toNat]

/-- **A character is read back**, escaped or as it stands. -/
theorem stringChar_escapeChar (c : Char) (rest : List Char) :
    stringChar (Text.escapeChar c ++ rest) = some (c, rest) := by
  unfold Text.escapeChar
  split_ifs with hquote hslash hfeed hreturn htab hback hform hcontrol
  · subst hquote; rfl
  · subst hslash; rfl
  · subst hfeed; rfl
  · subst hreturn; rfl
  · subst htab; rfl
  · subst hback; rfl
  · subst hform; rfl
  · exact unicodeEscape_control hcontrol rest
  · have hplain : ¬ (c = '\\' ∨ c.toNat < 0x20) := not_or.mpr ⟨hslash, hcontrol⟩
    rw [List.singleton_append, stringChar.eq_def]
    split
    · contradiction
    · next heq => exact absurd (List.cons.inj heq).1 hslash
    · next heq => exact absurd (List.cons.inj heq).1 hslash
    · next heq =>
        obtain ⟨rfl, rfl⟩ := List.cons.inj heq
        exact if_neg hplain

/-- The written form of a character is not empty and does not start with a quote. -/
theorem escapeChar_eq_cons (c : Char) :
    ∃ d cs, Text.escapeChar c = d :: cs ∧ d ≠ '"' := by
  unfold Text.escapeChar
  split_ifs with hquote
  all_goals exact ⟨_, _, rfl, by first | decide | exact hquote⟩

/-- **The characters of a string are read back** up to the closing quote. -/
theorem stringBody_escape {bound : Nat} {cs : List Char} (hbound : cs.length < bound)
    (rest : List Char) :
    stringBody bound (Text.escape cs ++ '"' :: rest) = some (cs, rest) := by
  induction cs generalizing bound with
  | nil =>
      obtain ⟨bound, rfl⟩ : ∃ n, bound = n + 1 := ⟨bound - 1, by omega⟩
      rfl
  | cons c cs ih =>
      obtain ⟨bound, rfl⟩ : ∃ n, bound = n + 1 := ⟨bound - 1, by omega⟩
      have hrest : stringBody bound (Text.escape cs ++ '"' :: rest) = some (cs, rest) :=
        ih (by simpa using hbound)
      have hchar := stringChar_escapeChar c (Text.escape cs ++ '"' :: rest)
      obtain ⟨d, written, hwritten, hquote⟩ := escapeChar_eq_cons c
      have hsplit : Text.escape (c :: cs) ++ '"' :: rest =
          d :: (written ++ (Text.escape cs ++ '"' :: rest)) := by
        rw [Text.escape, List.flatMap_cons, hwritten, List.append_assoc, List.cons_append]
        rfl
      rw [hwritten, List.cons_append] at hchar
      rw [hsplit, stringBody]
      · simp only [hchar, Option.bind_eq_bind, Option.bind_some, hrest]
      · exact fun _ heq => absurd (List.cons.inj heq).1 hquote

theorem length_le_length_escape (cs : List Char) : cs.length ≤ (Text.escape cs).length := by
  induction cs with
  | nil => exact Nat.le_refl 0
  | cons c cs ih =>
      obtain ⟨d, written, hwritten, -⟩ := escapeChar_eq_cons c
      rw [Text.escape, List.flatMap_cons, hwritten, List.length_append, List.length_cons,
        List.length_cons]
      have hrest : (List.flatMap Text.escapeChar cs).length = (Text.escape cs).length := rfl
      omega

/-- **A string is read back** once its opening quote is read. -/
theorem stringRest_escape (text : String) (rest : List Char) :
    stringRest (Text.escape text.toList ++ '"' :: rest) = some (text, rest) := by
  have hlength := length_le_length_escape text.toList
  have hbody : stringBody ((Text.escape text.toList ++ '"' :: rest).length + 1)
      (Text.escape text.toList ++ '"' :: rest) = some (text.toList, rest) :=
    stringBody_escape (by rw [List.length_append]; omega) rest
  simp only [stringRest, hbody, Option.map_some, String.ofList_toList]

/-! ## Numerals -/

/-- No number but zero is written with a zero in front. -/
theorem naturalText_head {n : Nat} (h : (Decimal.naturalText n).head? = some '0') : n = 0 := by
  induction n using Nat.strongRecOn with
  | _ n ih =>
      rw [Decimal.naturalText, Nat.toDigits_eq_if (by decide)] at h
      split at h
      · next hlt =>
          have hdigits : ∀ d < 10, Nat.digitChar d = '0' → d = 0 := by decide
          exact hdigits n hlt (Option.some.inj h)
      · next hge =>
          rw [List.head?_append_of_ne_nil _ Nat.toDigits_ne_nil] at h
          have hzero := ih (n / 10) (by omega) h
          omega

/-- A run of digits ends where something else follows. -/
theorem digitRun_append_of_stops {digits cs : List Char} (hdigits : ∀ c ∈ digits, c.isDigit = true)
    (hstops : Stops cs) : Decimal.digitRun (digits ++ cs) = (digits, cs) := by
  rw [Decimal.digitRun, List.takeWhile_append_of_pos hdigits, List.dropWhile_append_of_pos hdigits]
  cases cs with
  | nil => simp
  | cons c cs =>
      have hc : c.isDigit = false := (hstops c rfl).1
      simp [hc]

/-- Neither a fraction nor an exponent follows. -/
theorem cutFraction_of_stops {cs : List Char} (hstops : Stops cs) :
    cutFraction cs = some (none, cs) := by
  unfold cutFraction
  split
  · exact absurd rfl (hstops '.' rfl).2.1
  · rfl

theorem cutExponent_of_stops {cs : List Char} (hstops : Stops cs) :
    cutExponent cs = some (none, cs) := by
  cases cs with
  | nil => rfl
  | cons c cs =>
      obtain ⟨-, -, hlower, hupper⟩ := hstops c rfl
      exact if_neg (not_or.mpr ⟨hlower, hupper⟩)

/-- The digits of a number are not empty and have no superfluous zero in front. -/
theorem naturalText_canonical (n : Nat) :
    ((Decimal.naturalText n).isEmpty || ((Decimal.naturalText n).head? == some '0' &&
      decide (1 < (Decimal.naturalText n).length))) = false := by
  have hne : Decimal.naturalText n ≠ [] := Nat.toDigits_ne_nil
  by_cases hzero : (Decimal.naturalText n).head? = some '0'
  · rw [naturalText_head hzero]
    rfl
  · simp [hne, hzero]

theorem isDigit_of_mem_naturalText {n : Nat} {c : Char} (h : c ∈ Decimal.naturalText n) :
    c.isDigit = true :=
  Nat.isDigit_of_mem_toDigits (by decide) (by decide) h

/-- **A numeral is cut off** in front of a text that does not continue it. -/
theorem cutNumeral_integerText (i : Int) {rest : List Char} (hstops : Stops rest) :
    cutNumeral (Decimal.integerText i ++ rest) =
      some (⟨decide (i < 0), Decimal.naturalText i.natAbs, none, none⟩, rest) := by
  have hrun : Decimal.digitRun (Decimal.naturalText i.natAbs ++ rest) =
      (Decimal.naturalText i.natAbs, rest) :=
    digitRun_append_of_stops (fun _ => isDigit_of_mem_naturalText) hstops
  unfold Decimal.integerText
  split
  · next hneg =>
      rw [List.cons_append, cutNumeral]
      simp only [hrun, naturalText_canonical, cutFraction_of_stops hstops,
        cutExponent_of_stops hstops, Option.bind_eq_bind, Option.bind_some, hneg, decide_true,
        Bool.false_eq_true, if_false]
  · next hneg =>
      have hminus : ∀ cs, Decimal.naturalText i.natAbs ++ rest ≠ '-' :: cs := by
        intro cs heq
        rw [heq] at hrun
        have hnil : Decimal.naturalText i.natAbs = [] := (congrArg Prod.fst hrun).symm
        exact Nat.toDigits_ne_nil hnil
      unfold cutNumeral
      split
      next hsplit =>
        split at hsplit
        · next heq => exact absurd heq (hminus _)
        · obtain ⟨rfl, rfl⟩ := Prod.mk.inj hsplit
          simp only [hrun, naturalText_canonical, cutFraction_of_stops hstops,
            cutExponent_of_stops hstops, Option.bind_eq_bind, Option.bind_some, hneg,
            decide_false, Bool.false_eq_true, if_false]

/-- An integer is its magnitude with its sign. -/
theorem signed_natAbs (i : Int) : Decimal.signed (decide (i < 0)) i.natAbs = i := by
  unfold Decimal.signed
  split
  · next hneg =>
      have := of_decide_eq_true hneg
      omega
  · next hneg =>
      have : ¬ i < 0 := by simpa using hneg
      omega

theorem int64?_toInt (i : Int64) : Decimal.int64? i.toInt = some i := by
  have hrange : Decimal.isInt64 i.toInt = true :=
    decide_eq_true ⟨i.le_toInt, i.toInt_lt⟩
  rw [Decimal.int64?, if_pos hrange, Int64.ofInt_toInt]

/-- The value of the numeral is the integer. -/
theorem value?_integer (i : Int64) :
    Numeral.value? ⟨decide (i.toInt < 0), Decimal.naturalText i.toInt.natAbs, none, none⟩ =
      some (.int i) := by
  have hnonzero : (decide (i.toInt < 0) && i.toInt.natAbs == 0) = false := by
    rw [Bool.and_eq_false_imp, decide_eq_true_iff]
    intro hneg
    exact beq_false_of_ne (by omega)
  simp [Numeral.value?, Decimal.naturalValue_naturalText, hnonzero, signed_natAbs, int64?_toInt]

/-! ## Parts between commas -/

/-- Blanks end a value. -/
theorem stops_of_blanks {blanks cs : List Char} (hblanks : blanks.all isSpace = true)
    (hstops : Stops cs) : Stops (blanks ++ cs) := by
  cases blanks with
  | nil => exact hstops
  | cons b blanks =>
      have hspace : isSpace b = true := (Bool.and_eq_true_iff.mp hblanks).1
      have hstop : ∀ c, isSpace c = true → c.isDigit = false ∧ c ≠ '.' ∧ c ≠ 'e' ∧ c ≠ 'E' := by
        intro c hc
        simp only [isSpace, Bool.or_eq_true, beq_iff_eq] at hc
        obtain ((rfl | rfl) | rfl) | rfl := hc <;> decide
      intro c hc
      exact Option.some.inj hc ▸ hstop b hspace

/-- Blanks in front are passed over. -/
theorem skipSpace_blanks {blanks : List Char} (hblanks : blanks.all isSpace = true)
    (cs : List Char) : skipSpace (blanks ++ cs) = skipSpace cs :=
  List.dropWhile_append_of_pos (List.all_eq_true.mp hblanks)

/-- Nothing is passed over in front of a character that is no blank. -/
theorem skipSpace_cons {c : Char} (hspace : isSpace c = false) (cs : List Char) :
    skipSpace (c :: cs) = c :: cs :=
  List.dropWhile_cons_of_neg (by simp [hspace])

theorem stops_comma {cs : List Char} : Stops (',' :: cs) := by
  intro c hc
  obtain rfl : ',' = c := Option.some.inj hc
  decide

theorem stops_closing {c : Char} (hc : c = ']' ∨ c = '\x7d') {cs : List Char} :
    Stops (c :: cs) := by
  intro d hd
  obtain rfl : c = d := Option.some.inj hd
  rcases hc with rfl | rfl <;> decide

section Parts

variable {α : Type} {part : List Char → Option (α × List Char)} {closing : Char}
  {write : α → List Char} {blanks rest : List Char}

/-- Parts are read back up to the closing character. -/
theorem parts_intercalate (hblanks : blanks.all isSpace = true)
    (hspace : isSpace closing = false) (hcomma : closing ≠ ',')
    (hstops : Stops (closing :: rest)) {as : List α} (hne : as ≠ []) {bound : Nat}
    (hbound : as.length ≤ bound)
    (hpart : ∀ a ∈ as, ∀ rest, Stops rest → part (write a ++ rest) = some (a, rest)) :
    parts part closing bound
      ([','].intercalate (as.map write) ++ (blanks ++ closing :: rest)) = some (as, rest) := by
  have hbehind : skipSpace (blanks ++ closing :: rest) = closing :: rest := by
    rw [skipSpace_blanks hblanks, skipSpace_cons hspace]
  induction as generalizing bound with
  | nil => contradiction
  | cons a as ih =>
      obtain ⟨bound, rfl⟩ : ∃ n, bound = n + 1 := ⟨bound - 1, by simp at hbound; omega⟩
      have hfirst := hpart a List.mem_cons_self
      cases as with
      | nil =>
          have hread := hfirst _ (stops_of_blanks hblanks hstops)
          rw [List.map_singleton, List.intercalate_singleton, parts, hread]
          simp only [Option.bind_eq_bind, Option.bind_some, hbehind, if_neg hcomma, if_true]
      | cons b as =>
          have hread := hfirst (',' :: ([','].intercalate ((b :: as).map write) ++
            (blanks ++ closing :: rest))) stops_comma
          have hrest : parts part closing bound
              ([','].intercalate ((b :: as).map write) ++ (blanks ++ closing :: rest)) =
                some (b :: as, rest) :=
            ih (List.cons_ne_nil _ _) (by simpa using hbound)
              fun a' ha' => hpart a' (List.mem_cons_of_mem _ ha')
          have hsplit : [','].intercalate ((a :: b :: as).map write) ++
              (blanks ++ closing :: rest) =
                write a ++ ',' :: ([','].intercalate ((b :: as).map write) ++
                  (blanks ++ closing :: rest)) := by
            rw [List.map_cons, List.map_cons, List.intercalate_cons_cons]
            simp only [List.append_assoc, List.cons_append, List.nil_append]
          rw [hsplit, parts, hread]
          simp (disch := decide) only [Option.bind_eq_bind, Option.bind_some, skipSpace_cons,
            if_true, hrest]

/-- There are no more parts than characters, but for the last one. -/
theorem length_le_length_intercalate (as : List α) :
    as.length ≤ ([','].intercalate (as.map write)).length + 1 := by
  induction as with
  | nil => exact Nat.zero_le _
  | cons a as ih =>
      cases as with
      | nil => simp
      | cons b as =>
          rw [List.map_cons, List.map_cons, List.intercalate_cons_cons, List.length_append,
            List.length_append, List.length_cons, List.length_singleton, ← List.map_cons]
          omega

/-- **Parts between commas are read back** if every part is. -/
theorem container_intercalate (hblanks : blanks.all isSpace = true)
    (hspace : isSpace closing = false) (hcomma : closing ≠ ',')
    (hstops : Stops (closing :: rest))
    (hnone : ∀ cs, skipSpace cs = [] ∨ (∃ rest, skipSpace cs = closing :: rest) → part cs = none)
    {as : List α}
    (hpart : ∀ a ∈ as, ∀ rest, Stops rest → part (write a ++ rest) = some (a, rest)) :
    container part closing ([','].intercalate (as.map write) ++ (blanks ++ closing :: rest)) =
      some (as, rest) := by
  have hlength : as.length ≤ ([','].intercalate (as.map write)).length + 1 :=
    length_le_length_intercalate as
  have hbehind : skipSpace (blanks ++ closing :: rest) = closing :: rest := by
    rw [skipSpace_blanks hblanks, skipSpace_cons hspace]
  have hread : ∀ bound, as.length ≤ bound → as ≠ [] →
      parts part closing bound
        ([','].intercalate (as.map write) ++ (blanks ++ closing :: rest)) = some (as, rest) :=
    fun bound hbound hne => parts_intercalate hblanks hspace hcomma hstops hne hbound hpart
  by_cases hne : as = []
  · subst hne
    rw [container, List.map_nil, List.intercalate_nil, List.nil_append, hbehind]
    exact if_pos rfl
  · have hparts := hread
      (([','].intercalate (as.map write) ++ (blanks ++ closing :: rest)).length + 1)
      (by rw [List.length_append]; omega) hne
    generalize [','].intercalate (as.map write) ++ (blanks ++ closing :: rest) = cs at hparts
    -- the first part was read, so the container does not close at once
    have hsome : part cs ≠ none := by
      intro hpartnone
      rw [parts, hpartnone] at hparts
      contradiction
    rw [container]
    split
    · next c behind heq =>
        have hopen : c ≠ closing := by
          rintro rfl
          exact hsome (hnone cs (Or.inr ⟨behind, heq⟩))
        rw [if_neg hopen, hparts]
    · next heq => exact absurd (hnone cs (Or.inl heq)) hsome

end Parts

/-! ## Spellings -/

/-- The text is the value in some layout, with at most `n` containers inside one another.
Blanks may stand in front of a value, of a key and of a closing bracket. -/
inductive Spells : Nat → Value → List Char → Prop
  | null {n : Nat} : Spells n .null "null".toList
  | bool {n : Nat} (b : Bool) : Spells n (.bool b) (boolText b)
  | int {n : Nat} (i : Int64) : Spells n (.int i) (Decimal.integerText i.toInt)
  | str {n : Nat} (text : String) : Spells n (.str text) (Text.quoted text)
  | blank {n : Nat} {v : Value} {cs : List Char} {c : Char} (hc : isSpace c = true)
      (h : Spells n v cs) : Spells n v (c :: cs)
  | seq {n : Nat} {items : List Value} {write : Value → List Char} {behind : List Char}
      (h : ∀ v ∈ items, Spells n v (write v)) (hbehind : behind.all isSpace = true) :
      Spells (n + 1) (.seq items)
        ('[' :: ([','].intercalate (items.map write) ++ (behind ++ [']'])))
  | map {n : Nat} {entries : Mapping} {write : Value → List Char} {before behind : List Char}
      (hkeys : entries.keys.Nodup) (h : ∀ entry ∈ entries, Spells n entry.2 (write entry.2))
      (hbefore : before.all isSpace = true) (hbehind : behind.all isSpace = true) :
      Spells (n + 1) (.map entries)
        ('\x7b' :: ([','].intercalate (entries.map fun entry =>
          before ++ (Text.quoted entry.1 ++ ':' :: write entry.2)) ++ (behind ++ ['\x7d'])))

/-- Entries with different keys are the mapping of themselves. -/
theorem mappingOf_of_nodup {entries : Mapping} (hkeys : entries.keys.Nodup) :
    mappingOf entries = entries := by
  have hfold : ∀ (rest m : Mapping), (Mapping.keys (m ++ rest)).Nodup →
      rest.foldl (fun m entry => m.insert entry.1 entry.2) m = m ++ rest := by
    intro rest
    induction rest with
    | nil =>
        intro m _
        exact (List.append_nil m).symm
    | cons entry rest ih =>
        intro m hm
        have hinsert :=
          Mapping.insert_of_not_mem_keys (Mapping.not_mem_keys_of_nodup hm) entry.2
        have hrest := ih (m ++ [entry]) (by rw [List.append_assoc]; exact hm)
        rw [List.foldl_cons]
        simp only [hinsert, hrest, List.append_assoc, List.singleton_append]
  exact hfold entries [] hkeys

/-- A value is read as a scalar where it opens no container. -/
theorem value?_scalar {n : Nat} {c : Char} {cs : List Char} (hspace : isSpace c = false)
    (hseq : c ≠ '[') (hmap : c ≠ '\x7b') : value? n (c :: cs) = scalar (c :: cs) := by
  rw [value?.eq_def]
  simp only [skipSpace_cons hspace]
  split
  · next heq => exact absurd (List.cons.inj heq).1 hseq
  · next heq => exact absurd (List.cons.inj heq).1 hmap
  · rfl

/-- A blank in front of a value is passed over. -/
theorem value?_blank {n : Nat} {c : Char} {cs : List Char} (hc : isSpace c = true) :
    value? n (c :: cs) = value? n cs := by
  have hskip : skipSpace (c :: cs) = skipSpace cs := List.dropWhile_cons_of_pos hc
  rw [value?.eq_def, value?.eq_def]
  simp only [hskip]

/-- No value stands where a text ends or a container is closed. -/
theorem value?_eq_none {n : Nat} {closing : Char} (hclosing : closing = ']' ∨ closing = '\x7d')
    {cs : List Char} (h : skipSpace cs = [] ∨ ∃ rest, skipSpace cs = closing :: rest) :
    value? n cs = none := by
  rw [value?.eq_def]
  rcases h with hnil | ⟨rest, hcons⟩
  · simp only [hnil]
    rfl
  · simp only [hcons]
    rcases hclosing with rfl | rfl <;> rfl

/-- An integer starts with a sign or a digit. -/
theorem integerText_eq_cons (i : Int) :
    ∃ c cs, Decimal.integerText i = c :: cs ∧ (c = '-' ∨ c.isDigit = true) := by
  unfold Decimal.integerText
  split
  · exact ⟨_, _, rfl, Or.inl rfl⟩
  · obtain ⟨c, cs, hdigits⟩ := List.exists_cons_of_ne_nil
      (Nat.toDigits_ne_nil (n := i.natAbs) (b := 10))
    have hmem : c ∈ Decimal.naturalText i.natAbs := by
      rw [Decimal.naturalText, hdigits]
      exact List.mem_cons_self
    exact ⟨c, cs, hdigits, Or.inr (isDigit_of_mem_naturalText hmem)⟩

/-- **An integer is read back.** -/
theorem value?_integerText {n : Nat} (i : Int64) {rest : List Char} (hstops : Stops rest) :
    value? n (Decimal.integerText i.toInt ++ rest) = some (.int i, rest) := by
  have hnumeral := cutNumeral_integerText i.toInt hstops
  obtain ⟨c, cs, htext, hc⟩ := integerText_eq_cons i.toInt
  rw [htext, List.cons_append] at hnumeral ⊢
  have hother : ∀ d, d.isDigit = false → d ≠ '-' → c ≠ d := by
    rintro d hdigit hminus rfl
    rcases hc with hc | hc
    · exact hminus hc
    · exact absurd (hc.symm.trans hdigit) (by decide)
  have hspace : isSpace c = false := by
    rcases hc with rfl | hdigit
    · decide
    · by_contra hblank
      have hstop : Stops ([c] ++ []) := stops_of_blanks (by simpa using hblank) nofun
      exact absurd (hdigit.symm.trans (hstop c rfl).1) (by decide)
  rw [value?_scalar hspace (hother _ (by decide) (by decide)) (hother _ (by decide) (by decide)),
    scalar.eq_def]
  split
  · next heq => exact absurd (List.cons.inj heq).1 (hother _ (by decide) (by decide))
  · next heq => exact absurd (List.cons.inj heq).1 (hother _ (by decide) (by decide))
  · next heq => exact absurd (List.cons.inj heq).1 (hother _ (by decide) (by decide))
  · next heq => exact absurd (List.cons.inj heq).1 (hother _ (by decide) (by decide))
  · simp only [hnumeral, value?_integer, Option.bind_eq_bind, Option.bind_some]

/-- A quoted text in front of others is its quote, its body and its other quote. -/
theorem quoted_append (text : String) (rest : List Char) :
    Text.quoted text ++ rest = '"' :: (Text.escape text.toList ++ '"' :: rest) := by
  simp [Text.quoted]

/-- **An entry is read back**, its key in quotes and its value behind a colon. -/
theorem entry_quoted {α : Type} {value : String → List Char → Option (α × List Char)}
    {before cs rest : List Char} {name : String} {a : α} (hbefore : before.all isSpace = true)
    (hvalue : value name (cs ++ rest) = some (a, rest)) :
    entry value (before ++ (Text.quoted name ++ ':' :: cs) ++ rest) = some ((name, a), rest) := by
  rw [List.append_assoc, List.append_assoc, quoted_append, List.cons_append, entry,
    skipSpace_blanks hbefore, skipSpace_cons (by decide)]
  simp (disch := decide) only [stringRest_escape, skipSpace_cons, hvalue, Option.bind_eq_bind,
    Option.bind_some]

/-- No entry stands where a text ends or a mapping is closed. -/
theorem entry_eq_none {α : Type} {value : String → List Char → Option (α × List Char)}
    {cs : List Char} (h : skipSpace cs = [] ∨ ∃ rest, skipSpace cs = '\x7d' :: rest) :
    entry value cs = none := by
  rcases h with hnil | ⟨rest, hcons⟩
  · simp only [entry, hnil]
  · simp only [entry, hcons]
    rfl

/-- **Every spelling of a value is read back.** -/
theorem value?_of_spells {n : Nat} {v : Value} {cs : List Char} (h : Spells n v cs) :
    ∀ rest, Stops rest → value? n (cs ++ rest) = some (v, rest) := by
  induction h with
  | null =>
      intro rest _
      rw [value?.eq_def]
      rfl
  | bool b =>
      intro rest _
      cases b <;> rw [value?.eq_def] <;> rfl
  | int i => exact fun rest hstops => value?_integerText i hstops
  | str text =>
      intro rest _
      rw [quoted_append, value?_scalar (by decide) (by decide) (by decide), scalar.eq_def]
      simp only [stringRest_escape, Option.map_some]
  | blank hc h ih =>
      intro rest hstops
      rw [List.cons_append, value?_blank hc]
      exact ih rest hstops
  | @seq n items write behind h hbehind ih =>
      intro rest _
      have hread : container (value? n) ']'
          ([','].intercalate (items.map write) ++ (behind ++ ']' :: rest)) = some (items, rest) :=
        container_intercalate hbehind (by decide) (by decide) (stops_closing (Or.inl rfl))
          (fun _ => value?_eq_none (Or.inl rfl)) ih
      rw [value?.eq_def]
      simp (disch := decide) only [List.cons_append, List.append_assoc, List.nil_append,
        skipSpace_cons, hread, Option.map_some]
  | @map n entries write before behind hkeys h hbefore hbehind ih =>
      intro rest _
      have hentry : ∀ e ∈ entries, ∀ rest, Stops rest →
          entry (fun _ => value? n) (before ++ (Text.quoted e.1 ++ ':' :: write e.2) ++ rest) =
            some (e, rest) := fun e he rest hstops => entry_quoted hbefore (ih e he rest hstops)
      have hread : container (entry fun _ => value? n) '\x7d'
          ([','].intercalate (entries.map fun e =>
            before ++ (Text.quoted e.1 ++ ':' :: write e.2)) ++ (behind ++ '\x7d' :: rest)) =
              some (entries, rest) :=
        container_intercalate hbehind (by decide) (by decide) (stops_closing (Or.inr rfl))
          (fun _ => entry_eq_none) hentry
      rw [value?.eq_def]
      simp (disch := decide) only [List.cons_append, List.append_assoc, List.nil_append,
        skipSpace_cons] at hread ⊢
      simp only [hread, Option.map_some, mappingOf_of_nodup hkeys]

end LayeredConfig.Json
