import LayeredConfig.Proofs.Override.Filing
import LayeredConfig.Proofs.Path.Grammar

/-!
# The language of override tokens

A token is trimmed first, and a blank one counts for nothing.  Any other is an override if it
is of the form `path=raw`, where the path is a run of letters, digits, low lines and points with
something else than points in it.  The path holds no equals sign, so the raw value is everything
behind the first one.

What is no override is one of three things (`Offends`): an override for one page, a value for
the root, which cannot be written, or no assignment at all.  No token is two of them, because the
characters of a path end at the colon and at the equals sign alike (`cut_iff`).

`addToken_assigns` and `addToken_offends` say what one token does; a list of tokens is read to its
end if all of them are accepted (`foldlM_addToken`), and else up to the first that is not.  The
main statement is `tokens_are_read_or_rejected`.
-/

namespace LayeredConfig

namespace Override

/-- A run of characters of an override's path, and at least one. -/
structure PathText (path : String) : Prop where
  ne_empty : path ≠ ""
  chars : ∀ c ∈ path.toList, c.isAlphanum = true ∨ c = '_' ∨ c = '.'

/-- The token gives a path a raw value. -/
structure Assigns (token path raw : String) : Prop where
  pathText : PathText path
  spelled : token = path ++ "=" ++ raw

/-- The token gives a path on one page a raw value. -/
def NamesPage (token page : String) : Prop :=
  ∃ path raw, PathText path ∧ page ≠ "" ∧ (∀ c ∈ page.toList, c.isDigit = true) ∧
    token = page ++ ":" ++ path ++ "=" ++ raw

/-- The token is blank, or it gives a path that is not the root a raw value. -/
def Accepted (token : String) : Prop :=
  Text.trim token = "" ∨
    ∃ path raw, Assigns (Text.trim token) path raw ∧ ∃ c ∈ path.toList, c ≠ '.'

/-- What is wrong with a trimmed token that is no override. -/
inductive Offends (token : String) : Error → Prop
  /-- It is for one page. -/
  | page {page : String} (h : NamesPage token page) :
      Offends token (.unsupported (.pageOverride page token))
  /-- It gives the root a value. -/
  | root {path raw : String} (h : Assigns token path raw)
      (hpoints : ∀ c ∈ path.toList, c = '.') : Offends token (.unwritable ⟨[], .root⟩)
  /-- It gives nothing a value. -/
  | other (hassigns : ∀ path raw, ¬ Assigns token path raw)
      (hpage : ∀ page, ¬ NamesPage token page) : Offends token (.overrideToken token)

/-- The tokens without the blank ones, trimmed. -/
def trimmed (tokens : List String) : List String :=
  (tokens.map Text.trim).filter fun token => token ≠ ""

/-! ## How a token is cut -/

/-- A text is cut in front of a character that does not belong to the run before it. -/
theorem cut_iff {p : Char → Bool} {c : Char} (hc : p c = false) {cs front rest : List Char} :
    (cs.takeWhile p = front ∧ cs.dropWhile p = c :: rest) ↔
      (∀ d ∈ front, p d = true) ∧ cs = front ++ c :: rest := by
  constructor
  · rintro ⟨rfl, hrest⟩
    refine ⟨fun d => List.mem_takeWhile_imp, ?_⟩
    rw [← hrest, List.takeWhile_append_dropWhile]
  · rintro ⟨hfront, rfl⟩
    rw [List.takeWhile_append_of_pos hfront, List.dropWhile_append_of_pos hfront]
    simp [hc]

/-- A text that is not empty has a first character. -/
theorem exists_eq_ofList_cons {text : String} (h : text ≠ "") :
    ∃ c cs, text = String.ofList (c :: cs) := by
  obtain ⟨c, cs, hcons⟩ := List.exists_cons_of_ne_nil (mt String.toList_eq_nil_iff.mp h)
  exact ⟨c, cs, by rw [← hcons, String.ofList_toList]⟩

theorem isPathChar_iff {c : Char} :
    isPathChar c = true ↔ c.isAlphanum = true ∨ c = '_' ∨ c = '.' := by
  simp [isPathChar, or_assoc]

/-- The page of a token is the digits in front of a colon. -/
theorem cutPage_eq_some_iff {cs rest : List Char} {page : String} :
    cutPage cs = (some page, rest) ↔
      page ≠ "" ∧ (∀ c ∈ page.toList, c.isDigit = true) ∧ cs = page.toList ++ ':' :: rest := by
  rw [← cut_iff (p := Char.isDigit) (by decide), cutPage, Decimal.digitRun]
  constructor
  · intro h
    split at h
    · next d digits rest' heq =>
        obtain ⟨hpage, rfl⟩ := Prod.mk.inj h
        obtain ⟨hdigits, hrest⟩ := Prod.mk.inj heq
        obtain rfl := Option.some.inj hpage
        rw [String.toList_ofList]
        refine ⟨fun hempty => ?_, hdigits, hrest⟩
        exact List.cons_ne_nil d digits (String.ofList_eq_empty_iff.mp hempty)
    · cases h
  · rintro ⟨hne, hdigits, hrest⟩
    obtain ⟨d, digits, rfl⟩ := exists_eq_ofList_cons hne
    rw [hdigits, hrest, String.toList_ofList]
    rfl

/-- Without a page nothing is cut off. -/
theorem cutPage_eq_none {cs rest : List Char} (h : cutPage cs = (none, rest)) : rest = cs := by
  rw [cutPage] at h
  split at h
  · cases h
  · exact (Prod.mk.inj h).2.symm

/-- The parts that a token is cut into. -/
theorem Token.read?_eq_some_iff {text path raw : String} {page : Option String} :
    Token.read? text = some ⟨page, path, raw⟩ ↔
      PathText path ∧ cutPage text.toList = (page, path.toList ++ '=' :: raw.toList) := by
  rw [Token.read?]
  cases hcut : cutPage text.toList with
  | mk page' cs =>
      dsimp only
      constructor
      · intro h
        split at h
        · next c path' raw' hpath hraw =>
            obtain ⟨rfl, rfl, rfl⟩ := Token.mk.inj (Option.some.inj h)
            obtain ⟨hchars, rfl⟩ := (cut_iff (by decide)).mp ⟨hpath, hraw⟩
            refine ⟨⟨fun hempty => ?_, fun d hd => ?_⟩, ?_⟩
            · exact List.cons_ne_nil c path' (String.ofList_eq_empty_iff.mp hempty)
            · rw [String.toList_ofList] at hd
              exact isPathChar_iff.mp (hchars d hd)
            · rw [String.toList_ofList, String.toList_ofList]
        · contradiction
      · rintro ⟨⟨hne, hchars⟩, heq⟩
        obtain ⟨rfl, rfl⟩ := Prod.mk.inj heq
        obtain ⟨htake, hdrop⟩ := (cut_iff (p := isPathChar) (c := '=') (by decide)).mpr
          ⟨fun d hd => isPathChar_iff.mpr (hchars d hd), rfl⟩
        obtain ⟨c, cs, rfl⟩ := exists_eq_ofList_cons hne
        rw [htake, hdrop, String.toList_ofList]
        simp only [String.ofList_toList]

/-- A token without a page is an assignment. -/
theorem Token.read?_eq_assigned_iff {text path raw : String} :
    Token.read? text = some ⟨none, path, raw⟩ ↔ Assigns text path raw := by
  have hspelled : text = path ++ "=" ++ raw ↔
      text.toList = path.toList ++ '=' :: raw.toList := by
    rw [← String.toList_inj]
    simp
  rw [Token.read?_eq_some_iff]
  constructor
  · rintro ⟨hpath, hcut⟩
    exact ⟨hpath, hspelled.mpr (cutPage_eq_none hcut).symm⟩
  · rintro ⟨hpath, htext⟩
    refine ⟨hpath, ?_⟩
    have htext := hspelled.mp htext
    cases hcut : cutPage text.toList with
    | mk page rest =>
        cases page with
        | none => rw [cutPage_eq_none hcut, htext]
        | some page =>
            -- a colon would end the path in front of its equals sign
            obtain ⟨-, hdigits, hpage⟩ := cutPage_eq_some_iff.mp hcut
            have hrun : ∀ c ∈ page.toList, isPathChar c = true := fun c hc =>
              isPathChar_iff.mpr (Or.inl (by simp [Char.isAlphanum, hdigits c hc]))
            have hcolon := (cut_iff (p := isPathChar) (by decide)).mpr ⟨hrun, hpage⟩
            have hequals := (cut_iff (p := isPathChar) (by decide)).mpr
              ⟨fun c hc => isPathChar_iff.mpr (hpath.chars c hc), htext⟩
            have hsame := (List.cons.inj (hcolon.2.symm.trans hequals.2)).1
            exact absurd hsame (by decide)

/-- A token with a page names it. -/
theorem Token.read?_eq_paged_iff {text page : String} :
    (∃ path raw, Token.read? text = some ⟨some page, path, raw⟩) ↔ NamesPage text page := by
  refine exists_congr fun path => exists_congr fun raw => ?_
  rw [Token.read?_eq_some_iff, cutPage_eq_some_iff]
  have hspelled : text = page ++ ":" ++ path ++ "=" ++ raw ↔
      text.toList = page.toList ++ ':' :: (path.toList ++ '=' :: raw.toList) := by
    rw [← String.toList_inj]
    simp
  rw [hspelled]

/-- The path of an override is a path of keys, and the root only if it is made of points. -/
theorem PathText.exists_ofKeys {path : String} (h : PathText path) :
    ∃ names, Path.read? path = some (Path.ofKeys names) ∧
      (names = [] ↔ ∀ c ∈ path.toList, c = '.') := by
  have hbrackets : ∀ c ∈ path.toList, c ≠ '[' ∧ c ≠ ']' := by
    intro c hc
    constructor <;>
      · rintro rfl
        exact absurd (isPathChar_iff.mpr (h.chars _ hc)) (by decide)
  obtain ⟨names, hread, hnames⟩ := Path.exists_ofKeys_of_unbracketed hbrackets
  refine ⟨names, hread, hnames.trans (forall₂_congr fun c hc => ?_)⟩
  have hslash : c ≠ '/' := by
    rintro rfl
    exact absurd (isPathChar_iff.mpr (h.chars _ hc)) (by decide)
  simp [Path.isSeparator, hslash]

/-- A token is accepted or something is wrong with it. -/
theorem accepted_or_offends (token : String) :
    Accepted token ∨ Text.trim token ≠ "" ∧ ∃ e, Offends (Text.trim token) e := by
  by_cases hblank : Text.trim token = ""
  · exact Or.inl (Or.inl hblank)
  by_cases hassigns : ∃ path raw, Assigns (Text.trim token) path raw
  · obtain ⟨path, raw, h⟩ := hassigns
    by_cases hpoints : ∀ c ∈ path.toList, c = '.'
    · exact Or.inr ⟨hblank, _, .root h hpoints⟩
    · have hother : ∃ c ∈ path.toList, c ≠ '.' := by simpa using hpoints
      exact Or.inl (Or.inr ⟨path, raw, h, hother⟩)
  by_cases hpage : ∃ page, NamesPage (Text.trim token) page
  · obtain ⟨page, h⟩ := hpage
    exact Or.inr ⟨hblank, _, .page h⟩
  · simp only [not_exists] at hassigns hpage
    exact Or.inr ⟨hblank, _, .other hassigns hpage⟩

end Override

namespace Overrides

open Override

variable {o : Overrides} {token : String}

/-! ## What one token does -/

theorem addToken_blank (o : Overrides) (h : Text.trim token = "") : o.addToken token = .ok o := by
  simp [addToken, h]

/-- A token that is not blank is cut, and what it assigns is put in. -/
theorem addToken_of_read? {page : Option String} {path raw : String} (o : Overrides)
    (h : Token.read? (Text.trim token) = some ⟨page, path, raw⟩) :
    o.addToken token =
      match page with
      | some page => .error (.unsupported (.pageOverride page (Text.trim token)))
      | none => (o.put path (sniff raw)).toExcept >>= fun o =>
          .ok { o with tokens := o.tokens ++ [Text.trim token] } := by
  have hne : Text.trim token ≠ "" := by
    intro hblank
    rw [hblank] at h
    contradiction
  cases page <;> simp [addToken, hne, h]

/-- **An assignment is put in** at the place that its path names. -/
theorem addToken_assigns {path raw : String} (o : Overrides)
    (h : Assigns (Text.trim token) path raw) (hpath : ∃ c ∈ path.toList, c ≠ '.') :
    ∃ p nested, Path.read? path = some p ∧ nested.get? p = some (sniff raw) ∧
      o.addToken token =
        .ok ⟨o.flat.insert path (sniff raw), nested, o.tokens ++ [Text.trim token]⟩ := by
  obtain ⟨names, hread, hroot⟩ := h.pathText.exists_ofKeys
  cases names with
  | nil =>
      obtain ⟨c, hc, hne⟩ := hpath
      exact absurd (hroot.mp rfl c hc) hne
  | cons name names =>
      obtain ⟨nested, hset, hself, -⟩ := Mapping.set_ofKeys o.nested name names (sniff raw)
      have hput : o.put path (sniff raw) =
          .done { o with nested, flat := o.flat.insert path (sniff raw) } := by
        simp only [put, hread, hset, Edited.failure_done, Edited.result_done]
      refine ⟨_, nested, hread, hself, ?_⟩
      rw [addToken_of_read? o (Token.read?_eq_assigned_iff.mpr h), hput]
      rfl

/-- **A token with something wrong is rejected** for that. -/
theorem addToken_offends {e : Error} (o : Overrides) (hne : Text.trim token ≠ "")
    (h : Offends (Text.trim token) e) : o.addToken token = .error e := by
  cases h with
  | page h =>
      obtain ⟨path, raw, hread⟩ := Token.read?_eq_paged_iff.mpr h
      exact addToken_of_read? o hread
  | @root path raw h hpoints =>
      obtain ⟨names, hread, hroot⟩ := h.pathText.exists_ofKeys
      obtain rfl := hroot.mpr hpoints
      have hput : o.put path (sniff raw) = .stop o (.unwritable ⟨[], .root⟩) := by
        rw [put, hread]
        rfl
      rw [addToken_of_read? o (Token.read?_eq_assigned_iff.mpr h), hput]
      rfl
  | other hassigns hpage =>
      have hread : Token.read? (Text.trim token) = none := by
        refine Option.eq_none_iff_forall_ne_some.mpr fun parts hparts => ?_
        obtain ⟨page, path, raw⟩ := parts
        cases page with
        | none => exact hassigns path raw (Token.read?_eq_assigned_iff.mp hparts)
        | some page => exact hpage page (Token.read?_eq_paged_iff.mp ⟨path, raw, hparts⟩)
      simp [addToken, hne, hread]

/-! ## What a list of tokens does -/

/-- The entries that texts give values to, one after the other. -/
def Entered (texts : List String) (entries : Mapping) : Prop :=
  List.Forall₂ (fun text entry => ∃ raw, Assigns text entry.1 raw ∧ entry.2 = sniff raw)
    texts entries

/-- **Accepted tokens are read to their end**, and put in one by one. -/
theorem foldlM_addToken {tokens : List String} (h : ∀ token ∈ tokens, Accepted token)
    (o : Overrides) :
    ∃ o' entries, tokens.foldlM addToken o = .ok o' ∧ o'.tokens = o.tokens ++ trimmed tokens ∧
      Entered (trimmed tokens) entries ∧
      o'.flat = entries.foldl (fun m entry => m.insert entry.1 entry.2) o.flat := by
  induction tokens generalizing o with
  | nil => exact ⟨o, [], rfl, (List.append_nil _).symm, .nil, rfl⟩
  | cons token tokens ih =>
      obtain ⟨hfirst, hrest⟩ := List.forall_mem_cons.mp h
      by_cases hblank : Text.trim token = ""
      · have htrimmed : trimmed (token :: tokens) = trimmed tokens := by simp [trimmed, hblank]
        obtain ⟨o', entries, hread, hrun⟩ := ih hrest o
        rw [List.foldlM_cons, addToken_blank o hblank, htrimmed]
        exact ⟨o', entries, hread, hrun⟩
      · have htrimmed : trimmed (token :: tokens) = Text.trim token :: trimmed tokens := by
          simp [trimmed, hblank]
        obtain ⟨path, raw, hassigns, hpath⟩ := hfirst.resolve_left hblank
        obtain ⟨p, nested, -, -, hadd⟩ := addToken_assigns o hassigns hpath
        obtain ⟨o', entries, hread, htokens, hentered, hflat⟩ :=
          ih hrest ⟨o.flat.insert path (sniff raw), nested, o.tokens ++ [Text.trim token]⟩
        rw [List.foldlM_cons, hadd, htrimmed]
        refine ⟨o', (path, sniff raw) :: entries, hread, ?_, .cons ⟨raw, hassigns, rfl⟩ hentered,
          hflat⟩
        rw [htokens, List.append_assoc, List.singleton_append]

/-- The first token with something wrong ends the reading. -/
theorem parse_of_offends {front behind : List String} {e : Error}
    (hfront : ∀ token ∈ front, Accepted token) (hne : Text.trim token ≠ "")
    (h : Offends (Text.trim token) e) : parse (front ++ token :: behind) = .error e := by
  obtain ⟨o, entries, hread, -⟩ := foldlM_addToken hfront empty
  have hbad := addToken_offends o hne h
  simp only [parse, List.foldlM_append, List.foldlM_cons, hread, hbad, bind, Except.bind]

/-- Among tokens that are not all accepted there is a first one with something wrong. -/
theorem exists_offends {tokens : List String} (h : ¬ ∀ token ∈ tokens, Accepted token) :
    ∃ front token behind e, tokens = front ++ token :: behind ∧
      (∀ t ∈ front, Accepted t) ∧ Text.trim token ≠ "" ∧ Offends (Text.trim token) e := by
  induction tokens with
  | nil => exact absurd (List.forall_mem_nil _) h
  | cons token tokens ih =>
      rcases accepted_or_offends token with hfirst | ⟨hne, e, hoffends⟩
      · have hrest : ¬ ∀ token ∈ tokens, Accepted token := fun hrest =>
          h (List.forall_mem_cons.mpr ⟨hfirst, hrest⟩)
        obtain ⟨front, bad, behind, e, rfl, hfront, hbad⟩ := ih hrest
        exact ⟨token :: front, bad, behind, e, rfl, List.forall_mem_cons.mpr ⟨hfirst, hfront⟩, hbad⟩
      · exact ⟨[], token, tokens, e, rfl, List.forall_mem_nil _, hne, hoffends⟩

/-- **Tokens are read or rejected.**  Tokens are read if and only if each is accepted.  Then the
blank ones are left out, every path stands where it was given a value first, and it holds the
value that it was given last.  Otherwise the error is that of the first token with something
wrong. -/
theorem tokens_are_read_or_rejected (tokens : List String) :
    ((∃ o, parse tokens = .ok o) ↔ ∀ token ∈ tokens, Accepted token) ∧
    (∀ o, parse tokens = .ok o → o.tokens = trimmed tokens ∧
      ∃ entries, Entered o.tokens entries ∧ o.flat.keys = entries.keys.eraseDups ∧
        ∀ path, o.flat.lookup path = entries.reverse.lookup path) ∧
    ∀ e, parse tokens = .error e ↔
      ∃ front token behind, tokens = front ++ token :: behind ∧
        (∀ t ∈ front, Accepted t) ∧ Text.trim token ≠ "" ∧ Offends (Text.trim token) e := by
  have hread : ∀ o, parse tokens = .ok o → ∀ token ∈ tokens, Accepted token := by
    intro o ho
    by_contra hnot
    obtain ⟨front, token, behind, e, rfl, hfront, hne, h⟩ := exists_offends hnot
    rw [parse_of_offends hfront hne h] at ho
    cases ho
  refine ⟨⟨fun ⟨o, ho⟩ => hread o ho, fun h => ?_⟩, fun o ho => ?_, fun e => ⟨fun he => ?_, ?_⟩⟩
  · obtain ⟨o, -, ho, -⟩ := foldlM_addToken h empty
    exact ⟨o, ho⟩
  · obtain ⟨o', entries, ho', htokens, hentered, hflat⟩ := foldlM_addToken (hread o ho) empty
    obtain rfl : o = o' := Except.ok.inj (ho.symm.trans ho')
    have htokens : o.tokens = trimmed tokens := htokens
    have hflat : o.flat = Json.mappingOf entries := hflat
    refine ⟨htokens, entries, htokens ▸ hentered, ?_, fun path => ?_⟩
    · rw [hflat, Json.keys_mappingOf]
    · rw [hflat, Json.lookup_mappingOf]
  · by_cases hall : ∀ token ∈ tokens, Accepted token
    · obtain ⟨o, -, ho, -⟩ := foldlM_addToken hall empty
      cases he.symm.trans ho
    · obtain ⟨front, token, behind, e', rfl, hfront, hne, h⟩ := exists_offends hall
      rw [parse_of_offends hfront hne h] at he
      obtain rfl := Except.error.inj he
      exact ⟨front, token, behind, rfl, hfront, hne, h⟩
  · rintro ⟨front, token, behind, rfl, hfront, hne, h⟩
    exact parse_of_offends hfront hne h

end Overrides

end LayeredConfig
