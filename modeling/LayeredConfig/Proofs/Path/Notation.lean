import LayeredConfig.Proofs.Path.Grammar

/-!
# Notations read back

Both notations of a path are read as the path, as long as the reader has room for every index
and every key can be written: it is not empty and holds no mark of the notation.  In the root
notation the reader goes along with the notation of each step (`read?_rooted`).  The dotted
notation puts its point only behind a text, so the induction over the steps carries the text in
front of them with it (`finish_read_dottedFrom`).

No other path comes back.  Whatever a text is read as, each key is cut out between separators
and brackets and is left out where it is empty, and each index is within the bound
(`readable_of_readChars`); so a path that is read from any text at all can be written.

The main statement is `notations_read_back`.
-/

namespace LayeredConfig.Path

/-- **What is read can be written.** -/
theorem readable_of_readChars {cs : List Char} {p : Path} (h : readChars cs = some p) :
    ∀ s ∈ p, Readable s := by
  obtain ⟨parts, htexts, rfl⟩ := readChars_eq_some_iff.mp h
  intro s hs
  obtain ⟨piece, hpiece, hs⟩ := List.mem_flatMap.mp hs
  have hmem : piece.text ∈ cs.splitOnP isSeparator := htexts ▸ List.mem_map_of_mem hpiece
  have hsep := unseparated_of_mem_splitOnP hmem
  rcases List.mem_append.mp hs with hkey | hindex
  · rw [keyStep] at hkey
    split at hkey
    · contradiction
    · next hne =>
        obtain rfl := List.mem_singleton.mp hkey
        refine ⟨fun hempty => hne ?_, fun c hc => ?_⟩
        · rw [List.isEmpty_iff, ← String.toList_ofList (l := piece.key), hempty]
          rfl
        · rw [String.toList_ofList] at hc
          have hbracket := piece.key_unbracketed c hc
          have hmark := hsep c (List.mem_append_left _ hc)
          simp only [isSeparator, Bool.or_eq_false_iff, beq_eq_false_iff_ne] at hmark
          simp [hmark, hbracket]
  · obtain ⟨digits, hdigits, rfl⟩ := List.mem_map.mp hindex
    exact (piece.isIndex digits hdigits).bound

/-- **The dotted notation adds the steps that it writes**, whatever text is in front of them. -/
theorem finish_read_dottedFrom {steps : Path} (hsteps : ∀ s ∈ steps, Readable s)
    {before : List Char} {r : Reader} {p : Path}
    (hbefore : before.foldlM Reader.read ⟨[], .key []⟩ = some r) (hr : r.finish = some p) :
    readChars (dottedFrom before steps) = some (p ++ steps) := by
  induction steps generalizing before r p with
  | nil =>
      rw [dottedFrom, readChars_eq, hbefore, List.append_nil]
      exact hr
  | cons s steps ih =>
      have hrest : ∀ t ∈ steps, Readable t := fun t ht => hsteps t (List.mem_cons_of_mem _ ht)
      rw [List.append_cons]
      cases s with
      | key name =>
          obtain ⟨hne, hcs⟩ := hsteps _ List.mem_cons_self
          -- a key opens the text or stands behind a point, and is read from there
          have hopened : (before ++ if before.isEmpty then [] else ['.']).foldlM Reader.read
              ⟨[], .key []⟩ = some ⟨p, .key []⟩ := by
            split
            · next hempty =>
                obtain rfl := List.isEmpty_iff.mp hempty
                obtain rfl := Option.some.inj hbefore
                obtain rfl := Option.some.inj hr
                rfl
            · rw [List.foldlM_append, hbefore, Option.bind_eq_bind, Option.bind_some,
                List.foldlM_cons, read_separator rfl, hr]
              rfl
          refine ih hrest (r := ⟨p, .key name.toList⟩) ?_ ?_
          · rw [List.foldlM_append, hopened]
            exact foldlM_read_key hcs p []
          · rw [← keyStep_toList hne]
            rfl
      | index i =>
          obtain ⟨r', hread, hr'⟩ := finish_read_step hr (hsteps _ List.mem_cons_self)
          refine ih hrest (r := r') ?_ hr'
          rw [List.foldlM_append, hbefore]
          exact hread

/-- The dotted notation of a path is read as the path. -/
theorem read?_dotted {p : Path} (hp : ∀ s ∈ p, Readable s) :
    read? (dotted p) = some p := by
  have hstart : ([] : List Char).foldlM Reader.read ⟨[], .key []⟩ = some ⟨[], .key []⟩ := rfl
  rw [read?, dotted, String.toList_ofList]
  exact finish_read_dottedFrom hp hstart rfl

/-- Behind a text each key stands behind a point. -/
theorem dottedFrom_ofKeys {before : List Char} (hbefore : before ≠ []) (names : List String) :
    dottedFrom before (ofKeys names) = before ++ names.flatMap fun name => '.' :: name.toList := by
  induction names generalizing before with
  | nil => exact (List.append_nil before).symm
  | cons name names ih =>
      have hstep : dottedFrom before (ofKeys (name :: names)) =
          dottedFrom (before ++ '.' :: name.toList) (ofKeys names) := by
        rw [ofKeys, List.map_cons, dottedFrom, if_neg (by simpa using hbefore)]
        simp only [ofKeys, List.append_assoc, List.singleton_append]
      rw [hstep, ih (by simp), List.flatMap_cons, List.append_assoc]

theorem toList_intercalate_point (name : String) (names : List String) :
    (".".intercalate (name :: names)).toList =
      name.toList ++ names.flatMap fun name => '.' :: name.toList := by
  induction names generalizing name with
  | nil => simp
  | cons next names ih =>
      rw [String.intercalate_cons_cons, String.toList_append, String.toList_append, ih,
        List.flatMap_cons, List.append_assoc]
      rfl

/-- The dotted notation of a path of keys has points between the keys. -/
theorem dotted_ofKeys {name : String} (hname : name ≠ "") (names : List String) :
    dotted (ofKeys (name :: names)) = ".".intercalate (name :: names) := by
  have hne : name.toList ≠ [] := fun hnil => hname (String.toList_eq_nil_iff.mp hnil)
  rw [← String.toList_inj, dotted, String.toList_ofList, toList_intercalate_point,
    ← dottedFrom_ofKeys hne]
  rfl

/-- **Notations read back.**  A path is what its notation is read as, in root and in dotted
notation alike, if and only if its keys are not empty and hold no mark of the notation and its
indices are within the bound.  So a path that was read from some text is written and read again
without a change. -/
theorem notations_read_back :
    (∀ p : Path, (read? (rooted p) = some p ↔ ∀ s ∈ p, Readable s) ∧
      (read? (dotted p) = some p ↔ ∀ s ∈ p, Readable s)) ∧
    ∀ text : String, ((read? text).bind fun p => read? (rooted p)) = read? text ∧
      ((read? text).bind fun p => read? (dotted p)) = read? text := by
  refine ⟨fun p => ⟨⟨readable_of_readChars, read?_rooted⟩,
    ⟨readable_of_readChars, read?_dotted⟩⟩, fun text => ?_⟩
  cases hread : read? text with
  | none => exact ⟨rfl, rfl⟩
  | some p =>
      have hreadable : ∀ s ∈ p, Readable s := readable_of_readChars hread
      exact ⟨read?_rooted hreadable, read?_dotted hreadable⟩

/-- A path that opens with an index needs no key in front of it in either notation. -/
example : rooted [.index 0, .key "a", .index 1] = "[0]/a[1]" ∧
    dotted [.index 0, .key "a", .index 1] = "[0].a[1]" := by
  decide

end LayeredConfig.Path
