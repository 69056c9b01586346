import LayeredConfig.Proofs.Tree.Edits
import LayeredConfig.Proofs.Tree.Merge
import LayeredConfig.Proofs.Tree.Outline

/-!
# What a merge makes of two trees

A merge looks at one key at a time, but what comes of it can be said of the two trees as
wholes.

* `Value.Overlaid` says what a value becomes that another one is laid over: one case for each
  kind of value that is laid over it, and for two mappings one condition for each key.  It
  leaves no choice (`Overlaid.unique`).
* `Value.Clashes` says where two trees cannot be laid over one another: at a path of keys
  where one has a mapping, and the other a value that neither is one nor gives way to one.

A merge finishes exactly with the one tree overlaid on the other.  It stops exactly if they
clash, at the first path of the outline where they do, and what it has done by then is the
merge of all that stands in front of that path (`Mapping.merge_overlays_or_clashes`).
-/

namespace LayeredConfig

namespace Value

/-- The value `v`, laid over `old`, makes `w` of it. -/
inductive Overlaid (strategy : MergeStrategy) : Value → Value → Value → Prop
  /-- A scalar takes the place of what is there. -/
  | scalar {v old : Value} (hv : v.isComposite = false) : Overlaid strategy v old v
  /-- A sequence that replaces does so whatever is there. -/
  | replaced {items : List Value} {old : Value} (hs : strategy = .replace) :
      Overlaid strategy (.seq items) old (.seq items)
  /-- A sequence that is appended goes behind the items that are there. -/
  | appended {items existing : List Value} (hs : strategy = .append) :
      Overlaid strategy (.seq items) (.seq existing) (.seq (existing ++ items))
  /-- A sequence is appended to nothing but a sequence. -/
  | skipped {items : List Value} {old : Value} (hs : strategy = .append)
      (hold : ∀ existing, old ≠ .seq existing) : Overlaid strategy (.seq items) old old
  /-- A null gives way to a mapping. -/
  | adopted {source : Mapping} : Overlaid strategy (.map source) .null (.map source)
  /-- Two mappings are joined key by key.  Keys that are there keep their places, and new ones
  go behind them. -/
  | mapping {source dest out : Mapping}
      (keys : out.keys = dest.keys ++ source.keys.filter (· ∉ dest.keys))
      (kept : ∀ name, source.lookup name = none → out.lookup name = dest.lookup name)
      (added : ∀ name, dest.lookup name = none → out.lookup name = source.lookup name)
      (joined : ∀ name v old w, source.lookup name = some v → dest.lookup name = some old →
        out.lookup name = some w → Overlaid strategy v old w) :
      Overlaid strategy (.map source) (.map dest) (.map out)

/-- At a path of keys the value has a mapping, and `old` a value of the kind `found`, which
neither is a mapping nor gives way to one. -/
structure Clashes (v old : Value) (names : List String) (found : Kind) : Prop where
  mapping : ∃ entries, v.at? (Path.ofKeys names) = some (.map entries)
  obstacle : ∃ w, old.at? (Path.ofKeys names) = some w ∧ w.kind = found
  kind : found ≠ .mapping ∧ found ≠ .null

variable {strategy : MergeStrategy} {here : Path} {v old w w' : Value}
  {source dest out : Mapping} {name : String} {names : List String} {found : Kind}

/-! ## Overlays -/

/-- A value that is no mapping, merged into another, is laid over it. -/
theorem overlaid_of_not_map (hv : ∀ entries, v ≠ .map entries)
    (h : mergeValue strategy here v old = .done w) : Overlaid strategy v old w := by
  rw [mergeValue_of_not_map hv] at h
  obtain rfl : v.joined strategy old = w := congrArg Edited.result h
  cases v with
  | map entries => exact absurd rfl (hv entries)
  | seq items =>
      cases strategy with
      | replace => exact .replaced rfl
      | append =>
          cases old with
          | seq existing => exact .appended rfl
          | _ => exact .skipped rfl nofun
  | _ => exact .scalar rfl

/-- **What a merge makes of a value** is the other one laid over it. -/
theorem overlaid_of_mergeValue (hv : v.WellFormed)
    (h : mergeValue strategy here v old = .done w) : Overlaid strategy v old w := by
  induction v using map_induction generalizing here old w with
  | leaf v hleaf => exact overlaid_of_not_map hleaf h
  | map source ih =>
      obtain ⟨hnodup, hvalues⟩ := wellFormed_map.mp hv
      rcases mergeValue_map h with ⟨dest, out, rfl, hmerge, rfl⟩ | ⟨rfl, rfl⟩
      · have hlookup := lookup_mergeEntries hnodup hmerge
        refine .mapping (keys_mergeEntries hnodup hmerge) (fun name => (hlookup name).1)
          (fun name hnone => ?_) fun name v old w hv hold hw => ?_
        · cases hsource : source.lookup name with
          | none => exact ((hlookup name).1 hsource).trans hnone
          | some v => exact (hlookup name).2.1 v hsource hnone
        · obtain ⟨merged, hmerged, hout⟩ := (hlookup name).2.2 v old hv hold
          obtain rfl : merged = w := Option.some.inj (hout.symm.trans hw)
          have hmem : (name, v) ∈ source := Mapping.mem_of_lookup hv
          exact ih (name, v) hmem (hvalues _ hmem) hmerged
      · exact .adopted

/-- The keys of an overlay are held once. -/
theorem nodup_keys_overlaid (hsource : source.keys.Nodup) (hdest : dest.keys.Nodup) :
    (dest.keys ++ source.keys.filter (· ∉ dest.keys)).Nodup := by
  refine List.nodup_append.mpr ⟨hdest, hsource.filter _, ?_⟩
  rintro name hname _ hnew rfl
  have hfresh := (List.mem_filter.mp hnew).2
  exact of_decide_eq_true hfresh hname

/-- A value that is no mapping, laid over another, is joined to it. -/
theorem Overlaid.eq_joined (h : Overlaid strategy v old w) (hv : ∀ entries, v ≠ .map entries) :
    w = v.joined strategy old := by
  cases h with
  | scalar hscalar =>
      refine (joined_of_not_seq (fun items heq => ?_) strategy old).symm
      rw [heq] at hscalar
      contradiction
  | replaced hs => rw [hs]; rfl
  | appended hs => rw [hs]; rfl
  | skipped hs hnot =>
      rw [hs]
      cases old with
      | seq existing => exact absurd rfl (hnot existing)
      | _ => rfl
  | adopted => exact absurd rfl (hv _)
  | mapping => exact absurd rfl (hv _)

/-- **An overlay leaves no choice.** -/
theorem Overlaid.unique (hv : v.WellFormed) (hold : old.WellFormed)
    (h : Overlaid strategy v old w) (h' : Overlaid strategy v old w') : w = w' := by
  induction v using map_induction generalizing old w w' with
  | leaf v hleaf => exact (h.eq_joined hleaf).trans (h'.eq_joined hleaf).symm
  | map source ih =>
      obtain ⟨hnodup, hvalues⟩ := wellFormed_map.mp hv
      cases h with
      | scalar hscalar => contradiction
      | adopted =>
          cases h' with
          | scalar hscalar => contradiction
          | adopted => rfl
      | @mapping _ dest out keys kept added joined =>
          cases h' with
          | scalar hscalar => contradiction
          | @mapping _ _ out' keys' kept' added' joined' =>
              obtain ⟨hnodup', hvalues'⟩ := wellFormed_map.mp hold
              have hunique := nodup_keys_overlaid hnodup hnodup'
              refine congrArg map (Mapping.eq_of_keys_of_lookup (keys ▸ hunique)
                (keys.trans keys'.symm) fun name hname => ?_)
              cases hsource : source.lookup name with
              | none => rw [kept name hsource, kept' name hsource]
              | some v =>
                  cases hdest : dest.lookup name with
                  | none => rw [added name hdest, added' name hdest]
                  | some old =>
                      obtain ⟨w, hw⟩ := Mapping.exists_lookup_of_mem_keys hname
                      have hname' : name ∈ Mapping.keys out' := by rwa [keys', ← keys]
                      obtain ⟨w', hw'⟩ := Mapping.exists_lookup_of_mem_keys hname'
                      have hmem : (name, v) ∈ source := Mapping.mem_of_lookup hsource
                      rw [hw, hw', ih (name, v) hmem (hvalues _ hmem)
                        (hvalues' _ (Mapping.mem_of_lookup hdest))
                        (joined name v old w hsource hdest hw)
                        (joined' name v old w' hsource hdest hw')]

/-! ## Clashes -/

/-- Along keys only a mapping has a mapping. -/
theorem eq_map_of_at?_eq_map {entries : Mapping}
    (h : v.at? (Path.ofKeys names) = some (.map entries)) : ∃ m, v = .map m := by
  cases names with
  | nil => exact ⟨entries, Option.some.inj h⟩
  | cons name names => exact eq_map_of_at?_ofKeys h

/-- Two mappings clash where the values under some key do. -/
theorem clashes_cons :
    (Value.map source).Clashes (.map dest) (name :: names) found ↔
      ∃ v old, source.lookup name = some v ∧ dest.lookup name = some old ∧
        v.Clashes old names found := by
  constructor
  · rintro ⟨⟨entries, hmap⟩, ⟨w, hw, hfound⟩, hkind⟩
    rw [at?_ofKeys_cons] at hmap hw
    obtain ⟨v, hv, hmap⟩ := Option.bind_eq_some_iff.mp hmap
    obtain ⟨old, hold, hw⟩ := Option.bind_eq_some_iff.mp hw
    exact ⟨v, old, hv, hold, ⟨entries, hmap⟩, ⟨w, hw, hfound⟩, hkind⟩
  · rintro ⟨v, old, hv, hold, ⟨entries, hmap⟩, ⟨w, hw, hfound⟩, hkind⟩
    refine ⟨⟨entries, ?_⟩, ⟨w, ?_, hfound⟩, hkind⟩
    · rw [at?_ofKeys_cons, hv]
      exact hmap
    · rw [at?_ofKeys_cons, hold]
      exact hw

/-- Two mappings do not clash at the root. -/
theorem not_clashes_nil : ¬ (Value.map source).Clashes (.map dest) [] found := by
  rintro ⟨-, ⟨w, hw, hfound⟩, hkind, -⟩
  obtain rfl := Option.some.inj hw
  exact hkind hfound.symm

/-- **Where there is an overlay, there is no clash.** -/
theorem Overlaid.not_clashes (h : Overlaid strategy v old w) :
    ¬ v.Clashes old names found := by
  induction h generalizing names with
  | scalar hscalar =>
      rintro ⟨⟨entries, hmap⟩, -, -⟩
      obtain ⟨m, rfl⟩ := eq_map_of_at?_eq_map hmap
      contradiction
  | replaced | appended | skipped =>
      rintro ⟨⟨entries, hmap⟩, -, -⟩
      obtain ⟨m, heq⟩ := eq_map_of_at?_eq_map hmap
      contradiction
  | adopted =>
      rintro ⟨-, ⟨w, hw, hfound⟩, -, hnull⟩
      cases names with
      | nil =>
          obtain rfl := Option.some.inj hw
          exact hnull hfound.symm
      | cons name names => exact absurd ((at?_null_cons ..).symm.trans hw) nofun
  | mapping keys kept added joined ih =>
      cases names with
      | nil => exact not_clashes_nil
      | cons name names =>
          intro hclash
          obtain ⟨v, old, hv, hold, hbelow⟩ := clashes_cons.mp hclash
          have hmem : name ∈ Mapping.keys _ :=
            List.mem_map.mpr ⟨_, Mapping.mem_of_lookup hold, rfl⟩
          obtain ⟨w, hw⟩ := Mapping.exists_lookup_of_mem_keys
            (keys ▸ List.mem_append_left _ hmem)
          exact ih name v old w hv hold hw hbelow

end Value

/-! ## Where a merge stops -/

section Stop

variable {strategy : MergeStrategy} {here : Path} {v old : Value}
  {source dest : Mapping} {name : String} {c : MergeConflict}

/-- Merges one entry of a source into the mapping at `here`. -/
def mergeEntry (strategy : MergeStrategy) (here : Path) (dest : Mapping)
    (entry : String × Value) : Edited MergeConflict Mapping :=
  match dest.lookup entry.1 with
  | none => .done (dest.insert entry.1 entry.2)
  | some old =>
    (mergeValue strategy (here ++ [.key entry.1]) entry.2 old).map (dest.insert entry.1)

/-- A source is merged entry by entry. -/
theorem mergeEntries_eq_foldl (source dest : Mapping) :
    mergeEntries strategy here source dest =
      Edited.foldl (mergeEntry strategy here) dest source := by
  induction source generalizing dest with
  | nil => rw [mergeEntries, Edited.foldl]
  | cons entry rest ih =>
      rw [mergeEntries, Edited.foldl, mergeEntry]
      cases hold : dest.lookup entry.1 with
      | none => exact ih _
      | some old => simp only [funext ih]

/-- What stops a merge of two values: the one is a mapping, and the other a mapping that stops
it further down, or a value that does not give way. -/
theorem mergeValue_stop (h : (mergeValue strategy here v old).failure = some c) :
    ∃ entries, v = .map entries ∧
      ((∃ below, old = .map below ∧
          (mergeEntries strategy here entries below).failure = some c ∧
          (mergeValue strategy here v old).result =
            .map (mergeEntries strategy here entries below).result) ∨
        (c = ⟨here, old.kind⟩ ∧ (old.kind ≠ .mapping ∧ old.kind ≠ .null) ∧
          (mergeValue strategy here v old).result = old)) := by
  have hmap : ∃ entries, v = .map entries := by
    by_contra hnot
    rw [mergeValue_of_not_map fun entries heq => hnot ⟨entries, heq⟩] at h
    contradiction
  obtain ⟨entries, rfl⟩ := hmap
  refine ⟨entries, rfl, ?_⟩
  cases old with
  | map below => exact Or.inl ⟨below, rfl, h, rfl⟩
  | null => exact absurd h.symm (Option.some_ne_none _)
  | _ => exact Or.inr ⟨(Option.some.inj h).symm, ⟨nofun, nofun⟩, rfl⟩

/-- An entry stops a merge where its key is there already. -/
theorem mergeEntry_stop {result : Mapping}
    (h : mergeEntry strategy here dest (name, v) = .stop result c) :
    ∃ old, dest.lookup name = some old ∧
      (mergeValue strategy (here ++ [.key name]) v old).failure = some c ∧
      result = dest.insert name (mergeValue strategy (here ++ [.key name]) v old).result := by
  rw [mergeEntry] at h
  cases hold : dest.lookup name with
  | none =>
      simp only [hold] at h
      exact absurd (congrArg Edited.failure h) nofun
  | some old =>
      simp only [hold] at h
      exact ⟨old, rfl, congrArg Edited.failure h, (congrArg Edited.result h).symm⟩

/-- A merge stops at one entry of the source, with all merged that stand in front of it. -/
theorem exists_stop_of_mergeEntries (hnodup : source.keys.Nodup)
    (h : (mergeEntries strategy here source dest).failure = some c) :
    ∃ (front behind mid : Mapping) (name : String) (v old : Value),
      source = front ++ (name, v) :: behind ∧ name ∉ front.keys ∧
      mergeEntries strategy here front dest = .done mid ∧
      dest.lookup name = some old ∧ mid.lookup name = some old ∧
      (mergeValue strategy (here ++ [.key name]) v old).failure = some c ∧
      (mergeEntries strategy here source dest).result =
        mid.insert name (mergeValue strategy (here ++ [.key name]) v old).result := by
  rw [mergeEntries_eq_foldl] at h
  obtain ⟨front, ⟨name, v⟩, behind, mid, rfl, hfront, hentry⟩ := Edited.exists_stop_of_foldl h
  rw [← mergeEntries_eq_foldl] at hfront
  have hfresh : name ∉ Mapping.keys front := Mapping.not_mem_keys_of_nodup hnodup
  have hnodup' : (Mapping.keys front).Nodup := by
    rw [Mapping.keys, List.map_append] at hnodup
    exact (List.nodup_append.mp hnodup).1
  have hmid : mid.lookup name = dest.lookup name :=
    (lookup_mergeEntries hnodup' hfront name).1 (Mapping.lookup_of_not_mem_keys hfresh)
  obtain ⟨old, hold, hstop, hresult⟩ := mergeEntry_stop hentry
  exact ⟨front, behind, mid, name, v, old, rfl, hfresh, hfront, hmid.symm.trans hold, hold,
    hstop, by rw [mergeEntries_eq_foldl, hresult]⟩

/-- **A merge that stops** does so at a clash, with all merged that stands in front of it. -/
theorem mergeEntries_stop (hsource : (Value.map source).WellFormed)
    (h : (mergeEntries strategy here source dest).failure = some c) :
    ∃ name names, c.path = here ++ Path.ofKeys (name :: names) ∧
      (Value.map source).Clashes (.map dest) (name :: names) c.found ∧
      mergeEntries strategy here (source.before (name :: names)) dest =
        .done (mergeEntries strategy here source dest).result := by
  induction hv : Value.map source using Value.map_induction generalizing source here dest with
  | leaf v hleaf => exact absurd hv.symm (hleaf source)
  | map entries ih =>
      obtain rfl := Value.map.inj hv
      obtain ⟨hnodup, hvalues⟩ := Value.wellFormed_map.mp hsource
      obtain ⟨front, behind, mid, name, v, old, rfl, hfresh, hfront, hdest, hmid, hstop,
        hresult⟩ := exists_stop_of_mergeEntries hnodup h
      have hmem : (name, v) ∈ front ++ (name, v) :: behind :=
        List.mem_append_right _ List.mem_cons_self
      have hlookup := Mapping.lookup_of_mem hnodup hmem
      rw [hresult]
      obtain ⟨entries, rfl, ⟨below, rfl, hbelow, hleft⟩ | ⟨hc, hkind, hleft⟩⟩ :=
        mergeValue_stop hstop
      · -- the clash is further down, in the mapping under `name`
        obtain ⟨next, names, hpath, hclash, hbefore⟩ :=
          ih _ hmem (hvalues _ hmem) hbelow rfl
        have hclash' := Value.clashes_cons.mpr ⟨_, _, hlookup, hdest, hclash⟩
        refine ⟨name, next :: names, ?_, hclash', ?_⟩
        · rw [hpath, List.append_assoc]
          rfl
        · rw [mergeEntries_eq_foldl] at hfront ⊢
          rw [Mapping.before_append_cons hfresh, Edited.foldl_append, hfront,
            Edited.done_andThen, Edited.foldl, mergeEntry]
          simp only [hmid]
          rw [mergeValue, hbefore, hleft]
          rfl
      · have hclash : (Value.map entries).Clashes old [] c.found := by
          rw [hc]
          exact ⟨⟨entries, rfl⟩, ⟨old, rfl, rfl⟩, hkind⟩
        have hclash' := Value.clashes_cons.mpr ⟨_, _, hlookup, hdest, hclash⟩
        refine ⟨name, [], ?_, hclash', ?_⟩
        · rw [hc]
          rfl
        · rw [Mapping.before_append_singleton hfresh, hfront, hleft,
            Mapping.insert_of_lookup hmid]

end Stop

namespace Mapping

variable {strategy : MergeStrategy} {source dest out : Mapping}

/-- A merge that finishes lays the one tree over the other. -/
theorem overlaid_of_merge (hsource : (Value.map source).WellFormed)
    (h : source.merge strategy dest = .done out) :
    (Value.map source).Overlaid strategy (.map dest) (.map out) := by
  have hmerge : mergeEntries strategy [] source dest = .done out := h
  have hvalue : mergeValue strategy [] (.map source) (.map dest) = .done (.map out) := by
    rw [mergeValue, hmerge, Edited.done_map]
  exact Value.overlaid_of_mergeValue hsource hvalue

/-- **A merge finishes** exactly with the one tree laid over the other. -/
theorem merge_eq_done_iff (hsource : (Value.map source).WellFormed)
    (hdest : (Value.map dest).WellFormed) :
    source.merge strategy dest = .done out ↔
      (Value.map source).Overlaid strategy (.map dest) (.map out) := by
  refine ⟨overlaid_of_merge hsource, fun hover => ?_⟩
  cases hfailure : (source.merge strategy dest).failure with
  | some c =>
      obtain ⟨name, names, -, hclash, -⟩ := mergeEntries_stop hsource hfailure
      exact absurd hclash hover.not_clashes
  | none =>
      have hdone := Edited.eq_done hfailure
      have hsame := (overlaid_of_merge hsource hdone).unique hsource hdest hover
      rw [hdone, Value.map.inj hsame]

/-- **A merge of two trees** finishes exactly with the source laid over what was there.  It
stops exactly if the two trees clash: at the first of their clashes in the order of the source,
of which it tells the path and the kind of value that is in the way, and with everything
merged that stands in front of it. -/
theorem merge_overlays_or_clashes (strategy : MergeStrategy) {source dest : Mapping}
    (hsource : (Value.map source).WellFormed) (hdest : (Value.map dest).WellFormed) :
    (∀ out, source.merge strategy dest = .done out ↔
      (Value.map source).Overlaid strategy (.map dest) (.map out)) ∧
    ((source.merge strategy dest).failure ≠ none ↔
      ∃ names found, (Value.map source).Clashes (.map dest) names found) ∧
    ∀ c, (source.merge strategy dest).failure = some c →
      ∃ names behind, c.path = Path.ofKeys names ∧
        (Value.map source).Clashes (.map dest) names c.found ∧
        source.keyPaths = (source.before names).keyPaths ++ names :: behind ∧
        (∀ q ∈ (source.before names).keyPaths, ∀ found,
          ¬ (Value.map source).Clashes (.map dest) q found) ∧
        (source.before names).merge strategy dest =
          .done (source.merge strategy dest).result := by
  refine ⟨fun out => merge_eq_done_iff hsource hdest, ⟨fun h => ?_, ?_⟩, fun c h => ?_⟩
  · obtain ⟨c, hc⟩ := Option.ne_none_iff_exists'.mp h
    obtain ⟨name, names, -, hclash, -⟩ := mergeEntries_stop hsource hc
    exact ⟨_, _, hclash⟩
  · rintro ⟨names, found, hclash⟩ hnone
    exact (overlaid_of_merge hsource (Edited.eq_done hnone)).not_clashes hclash
  · obtain ⟨name, names, hpath, hclash, hbefore⟩ := mergeEntries_stop hsource h
    obtain ⟨entries, hentries⟩ := hclash.mapping
    obtain ⟨behind, houtline⟩ := keyPaths_eq_before hentries
    have hover := overlaid_of_merge (wellFormed_before hsource hentries) hbefore
    refine ⟨name :: names, behind, hpath, hclash, houtline, fun q hq found hclash' => ?_, hbefore⟩
    obtain ⟨entries', hmap⟩ := hclash'.mapping
    obtain ⟨entries'', hmap'⟩ := at?_before hentries hq hmap
    exact hover.not_clashes ⟨⟨entries'', hmap'⟩, hclash'.obstacle, hclash'.kind⟩

/-- A page with a mapping for its pool. -/
def pooledPage : Mapping :=
  [("db", .map [("name", .str "stock"), ("pool", .map [("size", .int 5)])]), ("port", .int 80)]

/-- A tree with a number for its pool. -/
def numberedPool : Mapping :=
  [("port", .int 8080), ("db", .map [("pool", .int 3)])]

/-- The name gets in, the pool does not, and the port is not reached. -/
theorem pooledPage_clashes :
    (Value.map pooledPage).WellFormed ∧ (Value.map numberedPool).WellFormed ∧
      pooledPage.merge .append numberedPool =
        .stop [("port", .int 8080), ("db", .map [("pool", .int 3), ("name", .str "stock")])]
          ⟨[.key "db", .key "pool"], .integer⟩ ∧
      (Value.map pooledPage).Clashes (.map numberedPool) ["db", "pool"] .integer ∧
      (∃ behind, pooledPage.keyPaths = [["db"], ["db", "name"]] ++ ["db", "pool"] :: behind) ∧
      mergeEntries .append [] [("db", .map [("name", .str "stock")])] numberedPool =
        .done [("port", .int 8080), ("db", .map [("pool", .int 3), ("name", .str "stock")])] := by
  have hsource : (Value.map pooledPage).WellFormed := by
    simp [pooledPage, Value.WellFormed, Value.WellFormedEntries]
  have hdest : (Value.map numberedPool).WellFormed := by
    simp [numberedPool, Value.WellFormed, Value.WellFormedEntries]
  obtain ⟨-, -, hstop⟩ := merge_overlays_or_clashes .append hsource hdest
  obtain ⟨names, behind, hpath, hclash, houtline, -, hbefore⟩ :=
    hstop ⟨[.key "db", .key "pool"], .integer⟩ rfl
  obtain rfl : ["db", "pool"] = names :=
    List.map_injective_iff.mpr (fun _ _ => Segment.key.inj) hpath
  exact ⟨hsource, hdest, rfl, hclash, ⟨behind, houtline⟩, hbefore⟩

end Mapping

end LayeredConfig
