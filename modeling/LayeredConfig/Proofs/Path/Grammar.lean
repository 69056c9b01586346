import LayeredConfig.Command.Run
import LayeredConfig.Proofs.Path.Steps
import Mathlib.Data.Set.List

/-!
# The grammar of paths

The reader of paths is a machine that takes one character after the other.  What it accepts
can be said without it.  Drop one slash in front and cut the rest at every point and slash;
each part must be a `Piece`: a key, which may be empty and holds no bracket, and behind it
indices in brackets.  The path is what the pieces add, one after the other.

A separator ends whatever stands in front of it, so the parts of a text are read apart
(`readChars_append_separator`), and it is enough to know what is read where no separator is.
There the machine never leaves a piece: `Seen` says what it has taken in at each place, one
more character keeps that (`Seen.read`), and at the end it has seen a whole piece
(`Seen.exists_piece`).  In the other direction a piece is read as its steps
(`Piece.readChars_text`).

The two directions together are `readChars_eq_some_iff`.  The main statement,
`paths_are_read_piece_by_piece`, adds that every other text is rejected as it was given,
wherever a path is asked for.
-/

namespace LayeredConfig.Path

/-- A piece of a path: a key, which may be empty, and the digits of the indices behind it. -/
structure Piece where
  key : List Char
  indices : List (List Char)
  key_unbracketed : ∀ c ∈ key, c ≠ '[' ∧ c ≠ ']'
  isIndex : ∀ digits ∈ indices, IsIndex digits

namespace Piece

/-- A piece as it is written. -/
def text (piece : Piece) : List Char :=
  piece.key ++ piece.indices.flatMap bracketed

/-- The steps that a piece adds to a path: its key unless that is empty, and its indices. -/
def steps (piece : Piece) : Path :=
  keyStep piece.key ++ piece.indices.map fun digits => .index (Decimal.naturalValue digits)

/-- A piece of a key alone. -/
def ofKey (key : List Char) (h : ∀ c ∈ key, c ≠ '[' ∧ c ≠ ']') : Piece :=
  ⟨key, [], h, List.forall_mem_nil _⟩

/-- A piece with one more index. -/
def push (piece : Piece) (digits : List Char) (h : IsIndex digits) : Piece where
  key := piece.key
  indices := piece.indices ++ [digits]
  key_unbracketed := piece.key_unbracketed
  isIndex := fun other hother => by
    rcases List.mem_append.mp hother with hold | hnew
    · exact piece.isIndex other hold
    · exact List.mem_singleton.mp hnew ▸ h

@[simp] theorem text_ofKey (key : List Char) (h : ∀ c ∈ key, c ≠ '[' ∧ c ≠ ']') :
    (ofKey key h).text = key :=
  List.append_nil _

@[simp] theorem steps_ofKey (key : List Char) (h : ∀ c ∈ key, c ≠ '[' ∧ c ≠ ']') :
    (ofKey key h).steps = keyStep key :=
  List.append_nil _

@[simp] theorem text_push (piece : Piece) (digits : List Char) (h : IsIndex digits) :
    (piece.push digits h).text = piece.text ++ bracketed digits := by
  simp [text, push]

@[simp] theorem steps_push (piece : Piece) (digits : List Char) (h : IsIndex digits) :
    (piece.push digits h).steps = piece.steps ++ [.index (Decimal.naturalValue digits)] := by
  simp [steps, push]

end Piece

/-! ## What is read where no separator is -/

/-- The reader has seen the text `cs`, which holds no separator: it has taken in a whole piece,
but for the key or the index that it is in. -/
def Seen (cs : List Char) (r : Reader) : Prop :=
  match r.place with
  | .key read => r.steps = [] ∧ cs = read ∧ ∀ c ∈ read, c ≠ '[' ∧ c ≠ ']'
  | .bracket digits => (∀ c ∈ digits, c.isDigit = true) ∧
      ∃ piece : Piece, piece.steps = r.steps ∧ cs = piece.text ++ '[' :: digits
  | .behind => ∃ piece : Piece, piece.steps = r.steps ∧ cs = piece.text

/-- **One more character is seen.** -/
theorem Seen.read {cs : List Char} {r r' : Reader} {c : Char} (h : Seen cs r)
    (hc : isSeparator c = false) (hread : r.read c = some r') : Seen (cs ++ [c]) r' := by
  obtain ⟨steps, place⟩ := r
  cases place with
  | key read =>
      obtain ⟨rfl, rfl, hkey⟩ := h
      simp only [Reader.read, hc, Bool.false_eq_true, if_false] at hread
      split at hread
      · next hopen =>
          obtain rfl := Option.some.inj hread
          exact ⟨List.forall_mem_nil _, .ofKey cs hkey, by simp, by rw [Piece.text_ofKey, hopen]⟩
      · next hopen =>
          split at hread
          · contradiction
          · next hclose =>
              obtain rfl := Option.some.inj hread
              refine ⟨rfl, rfl, fun d hd => ?_⟩
              rcases List.mem_append.mp hd with hold | hnew
              · exact hkey d hold
              · obtain rfl := List.mem_singleton.mp hnew
                exact ⟨hopen, hclose⟩
  | bracket digits =>
      obtain ⟨hdigits, piece, rfl, rfl⟩ := h
      simp only [Reader.read] at hread
      split at hread
      · next hdigit =>
          obtain rfl := Option.some.inj hread
          refine ⟨fun d hd => ?_, piece, rfl, by simp⟩
          rcases List.mem_append.mp hd with hold | hnew
          · exact hdigits d hold
          · exact List.mem_singleton.mp hnew ▸ hdigit
      · split at hread
        · next hclose =>
            obtain ⟨rfl, hne, hbound⟩ := hclose
            obtain rfl := Option.some.inj hread
            exact ⟨piece.push digits ⟨hne, hdigits, hbound⟩, by simp, by simp [bracketed]⟩
        · contradiction
  | behind =>
      obtain ⟨piece, rfl, rfl⟩ := h
      simp only [Reader.read, hc, Bool.false_eq_true, if_false] at hread
      split at hread
      · next hopen =>
          obtain rfl := Option.some.inj hread
          exact ⟨List.forall_mem_nil _, piece, rfl, by rw [hopen]⟩
      · contradiction

/-- So is a text behind what was seen. -/
theorem Seen.foldlM_read {cs more : List Char} {r r' : Reader} (h : Seen cs r)
    (hmore : ∀ c ∈ more, isSeparator c = false) (hread : more.foldlM Reader.read r = some r') :
    Seen (cs ++ more) r' := by
  induction more generalizing cs r with
  | nil =>
      obtain rfl := Option.some.inj hread
      rwa [List.append_nil]
  | cons c more ih =>
      rw [List.foldlM_cons] at hread
      obtain ⟨next, hchar, hread⟩ := Option.bind_eq_some_iff.mp hread
      rw [List.append_cons]
      exact ih (h.read (hmore c List.mem_cons_self) hchar)
        (fun d hd => hmore d (List.mem_cons_of_mem _ hd)) hread

/-- Where a path may end, a whole piece was seen. -/
theorem Seen.exists_piece {cs : List Char} {r : Reader} {p : Path} (h : Seen cs r)
    (hfinish : r.finish = some p) : ∃ piece : Piece, piece.text = cs ∧ piece.steps = p := by
  obtain ⟨steps, place⟩ := r
  cases place with
  | key read =>
      obtain ⟨rfl, rfl, hkey⟩ := h
      obtain rfl := Option.some.inj hfinish
      exact ⟨.ofKey cs hkey, by simp, by simp⟩
  | bracket digits => contradiction
  | behind =>
      obtain ⟨piece, rfl, rfl⟩ := h
      obtain rfl := Option.some.inj hfinish
      exact ⟨piece, rfl, rfl⟩

/-- Indices in brackets add themselves. -/
theorem finish_read_indices {indices : List (List Char)}
    (hindices : ∀ digits ∈ indices, IsIndex digits) {r : Reader} {p : Path}
    (hr : r.finish = some p) :
    ∃ r', (indices.flatMap bracketed).foldlM Reader.read r = some r' ∧
      r'.finish =
        some (p ++ indices.map fun digits => .index (Decimal.naturalValue digits)) := by
  induction indices generalizing r p with
  | nil => exact ⟨r, rfl, by rw [List.map_nil, List.append_nil, hr]⟩
  | cons digits indices ih =>
      obtain ⟨r₁, hread₁, hr₁⟩ := finish_read_bracketed hr (hindices digits List.mem_cons_self)
      obtain ⟨r₂, hread₂, hr₂⟩ := ih (fun d hd => hindices d (List.mem_cons_of_mem _ hd)) hr₁
      refine ⟨r₂, ?_, ?_⟩
      · rw [List.flatMap_cons, List.foldlM_append, hread₁]
        exact hread₂
      · rw [hr₂, List.map_cons, List.append_assoc, List.singleton_append]

/-- **A piece is read as its steps.** -/
theorem Piece.readChars_text (piece : Piece) (h : ∀ c ∈ piece.text, isSeparator c = false) :
    readChars piece.text = some piece.steps := by
  have hkey : ∀ c ∈ piece.key, c ∉ ['/', '.', '[', ']'] := by
    intro c hc
    have hsep : isSeparator c = false := h c (List.mem_append_left _ hc)
    have hbracket := piece.key_unbracketed c hc
    simp only [isSeparator, Bool.or_eq_false_iff, beq_eq_false_iff_ne] at hsep
    simp [hsep, hbracket]
  have hread := foldlM_read_key hkey [] []
  obtain ⟨r, hindices, hfinish⟩ :=
    finish_read_indices piece.isIndex (r := ⟨[], .key piece.key⟩) rfl
  rw [readChars_eq, text, List.foldlM_append, hread]
  rw [List.nil_append, Option.bind_eq_bind, Option.bind_some, hindices]
  exact hfinish

/-- **Without a separator** a text is read as the piece that it is. -/
theorem readChars_eq_some_iff_of_unseparated {cs : List Char}
    (h : ∀ c ∈ cs, isSeparator c = false) {p : Path} :
    readChars cs = some p ↔ ∃ piece : Piece, piece.text = cs ∧ piece.steps = p := by
  constructor
  · intro hread
    rw [readChars_eq] at hread
    obtain ⟨r, hread, hfinish⟩ := Option.bind_eq_some_iff.mp hread
    have hstart : Seen [] ⟨[], .key []⟩ := ⟨rfl, rfl, List.forall_mem_nil _⟩
    exact (hstart.foldlM_read h hread).exists_piece hfinish
  · rintro ⟨piece, rfl, rfl⟩
    exact piece.readChars_text h

/-! ## Texts cut at their separators -/

/-- A text is cut at its first separator, as long as it has one. -/
theorem cut_induction {motive : List Char → Prop}
    (whole : ∀ cs, (∀ c ∈ cs, isSeparator c = false) → motive cs)
    (cut : ∀ front c rest, (∀ d ∈ front, isSeparator d = false) → isSeparator c = true →
      motive rest → motive (front ++ c :: rest))
    (cs : List Char) : motive cs := by
  induction hlength : cs.length using Nat.strongRecOn generalizing cs with
  | _ length ih =>
      cases hfind : cs.find? isSeparator with
      | none => exact whole cs fun c hc => by simpa using List.find?_eq_none.mp hfind c hc
      | some c =>
          obtain ⟨hc, front, rest, rfl, hfront⟩ := List.find?_eq_some_iff_append.mp hfind
          have hshorter : rest.length < length := by
            rw [← hlength, List.length_append, List.length_cons]
            omega
          exact cut front c rest (fun d hd => by simpa using hfront d hd) hc
            (ih rest.length hshorter rest rfl)

/-- **A text is read as the pieces between its separators.** -/
theorem readChars_eq_some_iff {cs : List Char} {p : Path} :
    readChars cs = some p ↔
      ∃ parts : List Piece, parts.map Piece.text = cs.splitOnP isSeparator ∧
        parts.flatMap Piece.steps = p := by
  induction cs using cut_induction generalizing p with
  | whole cs h =>
      rw [List.splitOnP_eq_singleton h, readChars_eq_some_iff_of_unseparated h]
      constructor
      · rintro ⟨piece, htext, hsteps⟩
        exact ⟨[piece], by simp [htext], by simp [hsteps]⟩
      · rintro ⟨parts, htexts, hsteps⟩
        obtain ⟨piece, rfl, htext⟩ := List.map_eq_singleton_iff.mp htexts
        exact ⟨piece, htext, by simpa using hsteps⟩
  | cut front c rest hfront hc ih =>
      rw [readChars_append_separator front hc rest, List.splitOnP_append_cons _ _ hc,
        List.splitOnP_eq_singleton hfront]
      constructor
      · intro hread
        obtain ⟨q, hq, hread⟩ := Option.bind_eq_some_iff.mp hread
        obtain ⟨q', hq', rfl⟩ := Option.map_eq_some_iff.mp hread
        obtain ⟨piece, htext, rfl⟩ := (readChars_eq_some_iff_of_unseparated hfront).mp hq
        obtain ⟨parts, htexts, rfl⟩ := ih.mp hq'
        exact ⟨piece :: parts, by simp [htext, htexts], by simp⟩
      · rintro ⟨parts, htexts, rfl⟩
        obtain ⟨piece, parts, rfl, htext, htexts⟩ := List.map_eq_cons_iff.mp htexts
        have hfirst := (readChars_eq_some_iff_of_unseparated hfront).mpr ⟨piece, htext, rfl⟩
        have hbehind := ih.mpr ⟨parts, htexts, rfl⟩
        rw [hfirst, Option.bind_some, hbehind, Option.map_some, List.flatMap_cons]

/-- No part of a text that is cut at its separators holds one. -/
theorem unseparated_of_mem_splitOnP {cs part : List Char}
    (h : part ∈ cs.splitOnP isSeparator) : ∀ c ∈ part, isSeparator c = false := by
  induction cs using cut_induction with
  | whole cs hcs =>
      rw [List.splitOnP_eq_singleton hcs, List.mem_singleton] at h
      exact h ▸ hcs
  | cut front c rest hfront hc ih =>
      rw [List.splitOnP_append_cons _ _ hc, List.splitOnP_eq_singleton hfront,
        List.singleton_append] at h
      rcases List.mem_cons.mp h with rfl | hrest
      · exact hfront
      · exact ih hrest

/-- The parts of a text between its points and slashes, without one slash in front. -/
def pieces (text : String) : List (List Char) :=
  (dropSlash text.toList).splitOnP isSeparator

/-- A text is read as its parts, if they are pieces. -/
theorem read?_eq_some_iff {text : String} {p : Path} :
    read? text = some p ↔
      ∃ parts : List Piece, parts.map Piece.text = pieces text ∧
        parts.flatMap Piece.steps = p := by
  have hdropped : readChars (dropSlash text.toList) = read? text := readChars_eq _
  rw [pieces, ← hdropped, readChars_eq_some_iff]

/-- The parts of a text are pieces if each of them is. -/
theorem exists_map_text_iff {texts : List (List Char)} :
    (∃ parts : List Piece, parts.map Piece.text = texts) ↔
      ∀ cs ∈ texts, ∃ piece : Piece, piece.text = cs :=
  Set.ext_iff.mp (Set.range_list_map Piece.text) texts

/-- A text without separators and brackets is a key, unless it is empty. -/
theorem exists_ofKeys_of_unseparated {cs : List Char} (hsep : ∀ c ∈ cs, isSeparator c = false)
    (h : ∀ c ∈ cs, c ≠ '[' ∧ c ≠ ']') :
    ∃ names, readChars cs = some (ofKeys names) ∧
      (names = [] ↔ ∀ c ∈ cs, isSeparator c = true) := by
  have hread := (readChars_eq_some_iff_of_unseparated hsep).mpr
    ⟨.ofKey cs h, Piece.text_ofKey cs h, Piece.steps_ofKey cs h⟩
  cases cs with
  | nil => exact ⟨[], hread, by simp⟩
  | cons c cs =>
      have hc : isSeparator c = false := hsep c List.mem_cons_self
      exact ⟨[String.ofList (c :: cs)], hread, by simp [hc]⟩

/-- **A text without brackets** is a path of keys, and the root only if there is nothing between
its separators. -/
theorem exists_ofKeys_of_unbracketed {cs : List Char} (h : ∀ c ∈ cs, c ≠ '[' ∧ c ≠ ']') :
    ∃ names, readChars cs = some (ofKeys names) ∧
      (names = [] ↔ ∀ c ∈ cs, isSeparator c = true) := by
  induction cs using cut_induction with
  | whole cs hsep => exact exists_ofKeys_of_unseparated hsep h
  | cut front c rest hfront hc ih =>
      obtain ⟨hbefore, -, hbehind⟩ : (∀ d ∈ front, d ≠ '[' ∧ d ≠ ']') ∧ (c ≠ '[' ∧ c ≠ ']') ∧
          ∀ d ∈ rest, d ≠ '[' ∧ d ≠ ']' := by
        simpa only [List.forall_mem_append, List.forall_mem_cons] using h
      obtain ⟨names, hread, hnames⟩ := exists_ofKeys_of_unseparated hfront hbefore
      obtain ⟨others, hread', hothers⟩ := ih hbehind
      refine ⟨names ++ others, ?_, ?_⟩
      · rw [readChars_append_separator front hc, hread, hread', ofKeys, ofKeys, ofKeys,
          List.map_append]
        rfl
      · rw [List.append_eq_nil_iff, hnames, hothers, List.forall_mem_append, List.forall_mem_cons]
        simp only [hc, true_and]

/-- **Paths are read piece by piece.**  A text is a path if each of its parts is a piece, and then
the path is what the pieces add.  A text with another part is rejected as it was given, where an
override is added at it and where the value at it is asked for. -/
theorem paths_are_read_piece_by_piece (text : String) :
    ((∃ p, read? text = some p) ↔ ∀ cs ∈ pieces text, ∃ piece : Piece, piece.text = cs) ∧
    (∀ p, read? text = some p ↔
      ∃ parts : List Piece, parts.map Piece.text = pieces text ∧
        parts.flatMap Piece.steps = p) ∧
    ((∃ cs ∈ pieces text, ∀ piece : Piece, piece.text ≠ cs) →
      (∀ (o : Overrides) (value : Value), o.put text value = .stop o (.unreadablePath text)) ∧
      ∀ (templater : Templater) (files : Command.FileReader) (s : Command.Sources),
        s.valueText templater files text =
          s.compile templater files >>= fun _ => .error (.unreadablePath text)) := by
  have haccepted : (∃ p, read? text = some p) ↔
      ∀ cs ∈ pieces text, ∃ piece : Piece, piece.text = cs := by
    rw [← exists_map_text_iff]
    simp only [read?_eq_some_iff]
    constructor
    · rintro ⟨p, parts, htexts, -⟩
      exact ⟨parts, htexts⟩
    · rintro ⟨parts, htexts⟩
      exact ⟨parts.flatMap Piece.steps, parts, htexts, rfl⟩
  refine ⟨haccepted, fun p => read?_eq_some_iff, ?_⟩
  rintro ⟨cs, hcs, hother⟩
  have hnone : read? text = none := by
    refine Option.eq_none_iff_forall_ne_some.mpr fun p hp => ?_
    obtain ⟨piece, hpiece⟩ := haccepted.mp ⟨p, hp⟩ cs hcs
    exact hother piece hpiece
  constructor
  · intro o value
    simp only [Overrides.put, hnone]
  · intro templater files s
    simp only [Command.Sources.valueText, hnone]

/-- Separators may be repeated, a piece may be an index alone, and an index may start with zeros. -/
example : read? "/net//hosts[007][1]/[2]." =
    some [.key "net", .key "hosts", .index 7, .index 1, .index 2] := by
  decide

/-- Nothing but an index may follow an index. -/
example : read? "hosts[0]name" = none := by
  decide

end LayeredConfig.Path
