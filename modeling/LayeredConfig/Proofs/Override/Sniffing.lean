import LayeredConfig.Proofs.Json.Layout
import LayeredConfig.Proofs.Override.Tokens
import LayeredConfig.Proofs.Path.Notation

/-!
# Values that survive as text

An override's value is written without quotes, and its kind is found out by trying.  Booleans,
integers and containers get through that with their own text: each is caught by its own trial,
and by none in front of it.  A container starts with a bracket, which no number does, and is
read back from the compact layout (`sniff_toText`).  Floats may come back as other floats, and a
text may look like anything, so neither is covered, nor are null and containers that hold floats.

Around the value stands the token.  Neither end of it is blank, so that nothing is trimmed off
(`trim_token`), and the path in front of the first equals sign is the dotted notation of a path
of keys.

The main statement is `values_survive_as_text`.
-/

namespace LayeredConfig.Override

/-! ## The text of a value -/

/-- An integer is found out. -/
theorem integer?_integerText (i : Int64) :
    Decimal.integer? (String.ofList (Decimal.integerText i.toInt)) = some i := by
  have hdigits : ∀ c ∈ Decimal.naturalText i.toInt.natAbs, c.isDigit = true :=
    fun _ => Json.isDigit_of_mem_naturalText
  have hne : Decimal.naturalText i.toInt.natAbs ≠ [] := Nat.toDigits_ne_nil
  have hcut : Decimal.cutSign (Decimal.integerText i.toInt) =
      (decide (i.toInt < 0), Decimal.naturalText i.toInt.natAbs) := by
    unfold Decimal.integerText
    split
    · next hneg => rw [Decimal.cutSign, decide_eq_true hneg]
    · next hneg =>
        obtain ⟨c, cs, hcons⟩ := List.exists_cons_of_ne_nil hne
        have hc : c.isDigit = true := hdigits c (hcons ▸ List.mem_cons_self)
        rw [hcons, Decimal.cutSign.eq_def, decide_eq_false hneg]
        split
        · next heq =>
            obtain ⟨rfl, -⟩ := List.cons.inj heq
            contradiction
        · next heq =>
            obtain ⟨rfl, -⟩ := List.cons.inj heq
            contradiction
        · rfl
  have hall : (Decimal.naturalText i.toInt.natAbs).all Char.isDigit = true :=
    List.all_eq_true.mpr hdigits
  rw [Decimal.integer?, String.toList_ofList, hcut]
  simp [hne, hall, Decimal.naturalValue_naturalText, Json.signed_natAbs, Json.int64?_toInt]

/-- Texts that start with different characters are different. -/
theorem ofList_cons_ne {c d : Char} {cs ds : List Char} {text : String}
    (htext : text.toList = d :: ds) (hne : c ≠ d) : String.ofList (c :: cs) ≠ text := by
  rintro rfl
  rw [String.toList_ofList] at htext
  exact hne (List.cons.inj htext).1

section Bracket

variable {c : Char} (hc : c = '[' ∨ c = '\x7b') (cs : List Char)

include hc

theorem cutSign_bracket : Decimal.cutSign (c :: cs) = (false, c :: cs) := by
  rcases hc with rfl | rfl <;> rfl

/-- A bracket is no integer. -/
theorem integer?_bracket : Decimal.integer? (String.ofList (c :: cs)) = none := by
  have hdigit : c.isDigit = false := by rcases hc with rfl | rfl <;> decide
  simp [Decimal.integer?, cutSign_bracket hc, hdigit]

/-- Nor is it a float, or one of the words for what is not finite. -/
theorem float?_bracket : Decimal.float? (String.ofList (c :: cs)) = none := by
  have hlower : c.toLower = c := by rcases hc with rfl | rfl <;> decide
  have hletter : c ≠ 'i' ∧ c ≠ 'n' := by rcases hc with rfl | rfl <;> decide
  have hword : Decimal.asciiLower (c :: cs) = String.ofList (c :: cs.map Char.toLower) := by
    rw [Decimal.asciiLower, List.map_cons, hlower]
  have hinf : Decimal.asciiLower (c :: cs) ≠ "inf" := hword ▸ ofList_cons_ne rfl hletter.1
  have hinfinity : Decimal.asciiLower (c :: cs) ≠ "infinity" :=
    hword ▸ ofList_cons_ne rfl hletter.1
  have hnan : Decimal.asciiLower (c :: cs) ≠ "nan" := hword ▸ ofList_cons_ne rfl hletter.2
  have hpoint : Decimal.decimalPoint? (c :: cs) = none := by
    rcases hc with rfl | rfl <;> simp [Decimal.decimalPoint?, Decimal.digitRun]
  simp [Decimal.float?, cutSign_bracket hc, hinf, hinfinity, hnan, hpoint]

/-- **A text that starts with a bracket** is tried as a container alone. -/
theorem sniff_bracket :
    sniff (String.ofList (c :: cs)) =
      (Json.read? (String.ofList (c :: cs))).getD (.str (String.ofList (c :: cs))) := by
  have hletter : c ≠ 't' ∧ c ≠ 'f' := by rcases hc with rfl | rfl <;> decide
  have htrue : String.ofList (c :: cs) ≠ "true" := ofList_cons_ne rfl hletter.1
  have hfalse : String.ofList (c :: cs) ≠ "false" := ofList_cons_ne rfl hletter.2
  have hcontainer : container? (String.ofList (c :: cs)) =
      Json.read? (String.ofList (c :: cs)) := by
    rw [container?, String.toList_ofList]
    rcases hc with rfl | rfl <;> rfl
  rw [sniff, if_neg htrue, if_neg hfalse, integer?_bracket hc, float?_bracket hc, hcontainer]
  rfl

end Bracket

/-- A container starts with a bracket. -/
theorem exists_compact_eq_cons {v : Value} (h : v.isComposite = true) :
    ∃ c cs, Json.compact v = c :: cs ∧ (c = '[' ∨ c = '\x7b') := by
  cases v with
  | seq items => exact ⟨_, _, rfl, Or.inl rfl⟩
  | map entries => exact ⟨_, _, rfl, Or.inr rfl⟩
  | _ => contradiction

/-- The kinds of values that are found out from their text. -/
def Sniffable (v : Value) : Prop :=
  v.kind ∈ [Kind.bool, .integer, .sequence, .mapping]

/-- **A value is found out from its text.** -/
theorem sniff_toText {v : Value} (hkind : Sniffable v) (hkeys : v.WellFormed)
    (hfloats : ∀ leaf ∈ v.leavesFrom [], leaf.2.kind ≠ .float)
    (hdepth : v.depth ≤ Json.nestingLimit) : sniff v.toText = v := by
  have hcomposite : v.isComposite = true → sniff v.compactJson = v := by
    intro hcomposite
    have hread : Json.read? (String.ofList (Json.compact v)) = some v :=
      Json.read?_of_spells (Json.compact_layout.spells hkeys hfloats hdepth 0)
    obtain ⟨c, cs, htext, hc⟩ := exists_compact_eq_cons hcomposite
    rw [Value.compactJson]
    rw [htext] at hread ⊢
    rw [sniff_bracket hc, hread, Option.getD_some]
  cases v with
  | bool b => cases b <;> simp [Value.toText, sniff]
  | int i =>
      obtain ⟨c, cs, hcons, hc⟩ := Json.integerText_eq_cons i.toInt
      have hletter : c ≠ 't' ∧ c ≠ 'f' := by
        constructor <;>
          · rintro rfl
            exact absurd hc (by decide)
      have htext : (Value.int i).toText = String.ofList (c :: cs) := congrArg String.ofList hcons
      have htrue : (Value.int i).toText ≠ "true" := htext ▸ ofList_cons_ne rfl hletter.1
      have hfalse : (Value.int i).toText ≠ "false" := htext ▸ ofList_cons_ne rfl hletter.2
      have hinteger : Decimal.integer? (Value.int i).toText = some i := integer?_integerText i
      rw [sniff, if_neg htrue, if_neg hfalse, hinteger]
  | seq items => exact hcomposite rfl
  | map entries => exact hcomposite rfl
  | null => simp [Sniffable, Value.kind] at hkind
  | float x => simp [Sniffable, Value.kind] at hkind
  | str text => simp [Sniffable, Value.kind] at hkind

/-! ## The token -/

/-- The characters of a path lie between the point and the last letter. -/
theorem toNat_of_isPathChar {c : Char} (h : isPathChar c = true) :
    46 ≤ c.toNat ∧ c.toNat ≤ 122 := by
  rcases isPathChar_iff.mp h with halnum | rfl | rfl
  · rcases Bool.or_eq_true_iff.mp halnum with halpha | hdigit
    · rcases Bool.or_eq_true_iff.mp halpha with hupper | hlower
      · have hrange : 65 ≤ c.toNat ∧ c.toNat ≤ 90 := of_decide_eq_true hupper
        omega
      · have hrange : 97 ≤ c.toNat ∧ c.toNat ≤ 122 :=
          (Bool.and_eq_true_iff.mp hlower).imp of_decide_eq_true of_decide_eq_true
        omega
    · have hrange : 48 ≤ c.toNat ∧ c.toNat ≤ 57 := Char.isDigit_iff_toNat.mp hdigit
      omega
  · decide
  · decide

/-- No blank is one of them. -/
theorem isBlank_of_isPathChar {c : Char} (h : isPathChar c = true) : Text.isBlank c = false := by
  have hrange := toNat_of_isPathChar h
  simp only [Text.isBlank, Bool.or_eq_false_iff, Bool.and_eq_false_imp, decide_eq_true_eq,
    decide_eq_false_iff_not, beq_eq_false_iff_ne]
  omega

/-- The text of a value that is found out ends in a character that is not blank. -/
theorem exists_toText_eq_append {v : Value} (hkind : Sniffable v) :
    ∃ front c, v.toText.toList = front ++ [c] ∧ Text.isBlank c = false := by
  cases v with
  | bool b => cases b with
    | false => exact ⟨"fals".toList, 'e', rfl, by decide⟩
    | true => exact ⟨"tru".toList, 'e', rfl, by decide⟩
  | int i =>
      have hne : Decimal.naturalText i.toInt.natAbs ≠ [] := Nat.toDigits_ne_nil
      have hdigit := Json.isDigit_of_mem_naturalText (List.getLast_mem hne)
      have hlast : isPathChar ((Decimal.naturalText i.toInt.natAbs).getLast hne) = true :=
        isPathChar_iff.mpr (Or.inl (by simp [Char.isAlphanum, hdigit]))
      have hsplit := List.dropLast_append_getLast hne
      have htext : (Value.int i).toText.toList = Decimal.integerText i.toInt := String.toList_ofList
      rw [htext, Decimal.integerText]
      split
      · exact ⟨'-' :: _, _, congrArg _ hsplit.symm, isBlank_of_isPathChar hlast⟩
      · exact ⟨_, _, hsplit.symm, isBlank_of_isPathChar hlast⟩
  | seq items => exact ⟨'[' :: Json.compactItems items, ']', String.toList_ofList, by decide⟩
  | map entries =>
      exact ⟨'\x7b' :: Json.compactEntries entries, '\x7d', String.toList_ofList, by decide⟩
  | null => simp [Sniffable, Value.kind] at hkind
  | float x => simp [Sniffable, Value.kind] at hkind
  | str text => simp [Sniffable, Value.kind] at hkind

/-- Nothing is trimmed off a text whose ends are not blank. -/
theorem trim_eq_self {text : String} (hfirst : ∀ c ∈ text.toList.head?, Text.isBlank c = false)
    (hlast : ∀ c ∈ text.toList.getLast?, Text.isBlank c = false) : Text.trim text = text := by
  have hkept : ∀ cs : List Char, (∀ c ∈ cs.head?, Text.isBlank c = false) →
      cs.dropWhile Text.isBlank = cs := by
    intro cs hcs
    cases cs with
    | nil => rfl
    | cons c cs => exact List.dropWhile_cons_of_neg (by simp [hcs c rfl])
  have hreverse : ∀ c ∈ text.toList.reverse.head?, Text.isBlank c = false := by
    rwa [List.head?_reverse]
  rw [Text.trim, Text.trimRight, hkept _ hfirst, hkept _ hreverse, List.reverse_reverse,
    String.ofList_toList]

/-- **A token is kept as it is** if it starts with a path and ends in the text of a value. -/
theorem trim_token {path : String} (hpath : PathText path) {v : Value} (hkind : Sniffable v) :
    Text.trim (path ++ "=" ++ v.toText) = path ++ "=" ++ v.toText := by
  obtain ⟨front, c, htext, hc⟩ := exists_toText_eq_append hkind
  obtain ⟨d, ds, rfl⟩ := exists_eq_ofList_cons hpath.ne_empty
  have hd : isPathChar d = true :=
    isPathChar_iff.mpr (hpath.chars d (String.toList_ofList ▸ List.mem_cons_self))
  apply trim_eq_self
  · intro e he
    rw [String.toList_append, String.toList_append, String.toList_ofList] at he
    obtain rfl : d = e := Option.some.inj he
    exact isBlank_of_isPathChar hd
  · intro e he
    rw [String.toList_append, htext, ← List.append_assoc, List.getLast?_concat] at he
    obtain rfl : c = e := Option.some.inj he
    exact hc

/-- A key of an override's path as it is written between points. -/
structure Word (name : String) : Prop where
  ne_empty : name ≠ ""
  chars : ∀ c ∈ name.toList, c.isAlphanum = true ∨ c = '_'

/-- A word can be written in a path. -/
theorem Word.spellable {name : String} (h : Word name) : Path.Spellable name := by
  refine ⟨h.ne_empty, fun c hc hmark => ?_⟩
  have hmarks : ∀ d ∈ ['/', '.', '[', ']'], ¬ (d.isAlphanum = true ∨ d = '_') := by simp
  exact hmarks c hmark (h.chars c hc)

section Words

variable {name : String} {names : List String} (h : ∀ n ∈ name :: names, Word n)

include h

/-- Words with points between them are the text of a path. -/
theorem pathText_intercalate : PathText (".".intercalate (name :: names)) := by
  have hchars : ∀ n ∈ name :: names, ∀ c ∈ n.toList, c.isAlphanum = true ∨ c = '_' ∨ c = '.' :=
    fun n hn c hc => ((h n hn).chars c hc).imp_right Or.inl
  have htext := Path.toList_intercalate_point name names
  constructor
  · intro hempty
    rw [hempty] at htext
    have hname : name.toList = [] := (List.append_eq_nil_iff.mp htext.symm).1
    exact (h name List.mem_cons_self).ne_empty (String.toList_eq_nil_iff.mp hname)
  · intro c hc
    rw [htext] at hc
    rcases List.mem_append.mp hc with hfirst | hrest
    · exact hchars name List.mem_cons_self c hfirst
    · obtain ⟨n, hn, hc⟩ := List.mem_flatMap.mp hrest
      rcases List.mem_cons.mp hc with rfl | hc
      · exact Or.inr (Or.inr rfl)
      · exact hchars n (List.mem_cons_of_mem _ hn) c hc

/-- They are read as the keys of the path. -/
theorem read?_intercalate :
    Path.read? (".".intercalate (name :: names)) = some (Path.ofKeys (name :: names)) := by
  have hname : name ≠ "" := (h name List.mem_cons_self).ne_empty
  rw [← Path.dotted_ofKeys hname names]
  exact Path.read?_dotted (List.forall_mem_map.mpr fun n hn => (h n hn).spellable)

/-- There is more than points in them. -/
theorem exists_ne_point : ∃ c ∈ (".".intercalate (name :: names)).toList, c ≠ '.' := by
  obtain ⟨hne, hchars⟩ := h name List.mem_cons_self
  obtain ⟨c, cs, rfl⟩ := exists_eq_ofList_cons hne
  have hc : c ∈ (String.ofList (c :: cs)).toList := String.toList_ofList ▸ List.mem_cons_self
  refine ⟨c, ?_, ?_⟩
  · rw [Path.toList_intercalate_point]
    exact List.mem_append_left _ hc
  · rintro rfl
    exact absurd (hchars '.' hc) (by decide)

end Words

/-- **Values survive as text.**  A boolean, an integer, or a container without floats that nests
no more than 127 deep, written as text behind the words of a path and an equals sign, is read as
an override of that very value, both under the path as written and at its place in the tree. -/
theorem values_survive_as_text {name : String} {names : List String}
    (hwords : ∀ n ∈ name :: names, Word n) {v : Value} (hkind : Sniffable v)
    (hkeys : v.WellFormed) (hfloats : ∀ leaf ∈ v.leavesFrom [], leaf.2.kind ≠ .float)
    (hdepth : v.depth ≤ 127) :
    ∃ o, Overrides.parse [".".intercalate (name :: names) ++ "=" ++ v.toText] = .ok o ∧
      o.flat = [(".".intercalate (name :: names), v)] ∧
      Path.read? (".".intercalate (name :: names)) = some (Path.ofKeys (name :: names)) ∧
      o.nested.get? (Path.ofKeys (name :: names)) = some v := by
  have hpath := pathText_intercalate hwords
  have hassigns : Assigns (Text.trim (".".intercalate (name :: names) ++ "=" ++ v.toText))
      (".".intercalate (name :: names)) v.toText :=
    ⟨hpath, trim_token hpath hkind⟩
  obtain ⟨p, nested, hp, hself, hadd⟩ :=
    Overrides.addToken_assigns .empty hassigns (exists_ne_point hwords)
  have hread := read?_intercalate hwords
  obtain rfl : Path.ofKeys (name :: names) = p := Option.some.inj (hread.symm.trans hp)
  rw [sniff_toText hkind hkeys hfloats hdepth] at hself hadd
  have hparse : Overrides.parse [".".intercalate (name :: names) ++ "=" ++ v.toText] =
      .ok ⟨[(".".intercalate (name :: names), v)], nested,
        [Text.trim (".".intercalate (name :: names) ++ "=" ++ v.toText)]⟩ := by
    rw [Overrides.parse, List.foldlM_cons, hadd]
    rfl
  exact ⟨_, hparse, rfl, hread, hself⟩

/-- A mapping whose text holds an equals sign, blanks and characters that are escaped. -/
def reservedValue : Value :=
  .map [("a=b", .seq [.null, .str " \t\"=\x01", .map []]), ("", .int (-9223372036854775808)),
    ("z", .bool false), ("y", .seq [])]

/-- It survives behind a path that starts like an override for a page. -/
theorem reservedValue_survives :
    (∀ n ∈ ["7", "_net"], Word n) ∧ Sniffable reservedValue ∧ reservedValue.WellFormed ∧
      (∀ leaf ∈ reservedValue.leavesFrom [], leaf.2.kind ≠ .float) ∧ reservedValue.depth ≤ 127 ∧
      ∃ o, Overrides.parse [".".intercalate ["7", "_net"] ++ "=" ++ reservedValue.toText] = .ok o ∧
        o.flat = [(".".intercalate ["7", "_net"], reservedValue)] ∧
        Path.read? (".".intercalate ["7", "_net"]) = some (Path.ofKeys ["7", "_net"]) ∧
        o.nested.get? (Path.ofKeys ["7", "_net"]) = some reservedValue := by
  have hwords : ∀ n ∈ ["7", "_net"], Word n := by
    intro n hn
    rcases List.mem_pair.mp hn with rfl | rfl
    · exact ⟨by simp, by simp⟩
    · exact ⟨by simp, by simp⟩
  have hkind : Sniffable reservedValue := by
    rw [Sniffable]
    decide
  have hkeys : reservedValue.WellFormed := by
    simp [reservedValue, Mapping.keys, Value.WellFormed, Value.WellFormedItems,
      Value.WellFormedEntries]
  have hfloats : ∀ leaf ∈ reservedValue.leavesFrom [], leaf.2.kind ≠ .float := by decide
  have hdepth : reservedValue.depth ≤ 127 := by decide
  exact ⟨hwords, hkind, hkeys, hfloats, hdepth,
    values_survive_as_text hwords hkind hkeys hfloats hdepth⟩

end LayeredConfig.Override
