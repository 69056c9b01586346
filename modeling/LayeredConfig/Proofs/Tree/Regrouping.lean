import LayeredConfig.Proofs.Tree.Overlay

/-!
# Merging page by page

Three trees can be merged in two ways: the second into the first and the third on top of
that, or the second and the third beforehand and what they make into the first.  `Regroups`
says of any merge of things that the two ways come to the same if both are gone to the end.

Whether they do is decided where the trees stop being mappings.

* If the third value is no mapping the two ways never differ
  (`regroups_mergeValue_of_not_map`): it overwrites on both of them, or it is appended on both
  or on neither.
* If it is a mapping the second one has to give way to it or to be one too.  A null gives way,
  and this is the one thing that does not regroup: merged beforehand the null is forgotten, and
  what it would have overwritten in the first tree stays.
* Between mappings it is a matter of each key (`regroups_mergeChild`) and of the order of the
  keys (`keys_regroup`).

So the one thing to ask for is that in the second tree no path of keys leads to a null
(`Mapping.merge_assoc`).  Nulls among the items of its sequences make no difference.
-/

namespace LayeredConfig

/-- The two ways to bring three things together come to the same, if both get to the end:
`y` into `x` and `z` into that, or what `z` into `y` makes into `x`. -/
def Regroups {ε α : Type} (merge : α → α → Edited ε α) (x y z : α) : Prop :=
  ∀ xy left yz right, merge y x = .done xy → merge z xy = .done left →
    merge z y = .done yz → merge yz x = .done right → left = right

/-- No path of keys leads to a null. -/
def Value.NullFreeAtKeys (v : Value) : Prop :=
  ∀ names, v.at? (Path.ofKeys names) ≠ some .null

/-- A merge of what stands under a key, where one of the trees or both may have nothing. -/
def mergeChild (strategy : MergeStrategy) (here : Path) :
    Option Value → Option Value → Edited MergeConflict (Option Value)
  | none, old => .done old
  | some v, none => .done (some v)
  | some v, some old => (mergeValue strategy here v old).map some

section Children

variable {strategy : MergeStrategy} {here : Path} {source dest out : Mapping}

/-- Under each key a merge of mappings merges what they hold there. -/
theorem mergeChild_lookup (hnodup : source.keys.Nodup)
    (h : mergeEntries strategy here source dest = .done out) (name : String) :
    mergeChild strategy (here ++ [.key name]) (source.lookup name) (dest.lookup name) =
      .done (out.lookup name) := by
  obtain ⟨hkept, hadded, hjoined⟩ := lookup_mergeEntries hnodup h name
  cases hsource : source.lookup name with
  | none => rw [mergeChild, hkept hsource]
  | some v =>
      cases hdest : dest.lookup name with
      | none => rw [mergeChild, hadded v hsource hdest]
      | some old =>
          obtain ⟨merged, hmerged, hout⟩ := hjoined v old hsource hdest
          rw [mergeChild, hmerged, hout, Edited.done_map]

/-- What finishes under a key where both trees hold something is a merge of the two. -/
theorem mergeChild_some {v old : Value} {w : Option Value}
    (h : mergeChild strategy here (some v) (some old) = .done w) :
    ∃ merged, w = some merged ∧ mergeValue strategy here v old = .done merged := by
  have hfailure : (mergeValue strategy here v old).failure = none := congrArg Edited.failure h
  exact ⟨_, (congrArg Edited.result h).symm, Edited.eq_done hfailure⟩

/-- **Under a key** merges regroup wherever one of the three trees has nothing. -/
theorem regroups_mergeChild {x y z : Option Value}
    (h : ∀ u ∈ x, ∀ v ∈ y, ∀ w ∈ z, Regroups (mergeValue strategy here) u v w) :
    Regroups (mergeChild strategy here) x y z := by
  intro xy left yz right hxy hleft hyz hright
  cases z with
  | none =>
      obtain rfl := Edited.done_inj hleft
      obtain rfl := Edited.done_inj hyz
      exact Edited.done_inj (hxy.symm.trans hright)
  | some w =>
      cases y with
      | none =>
          obtain rfl := Edited.done_inj hxy
          obtain rfl := Edited.done_inj hyz
          exact Edited.done_inj (hleft.symm.trans hright)
      | some v =>
          obtain ⟨vw, rfl, hvw⟩ := mergeChild_some hyz
          cases x with
          | none =>
              obtain rfl := Edited.done_inj hxy
              obtain rfl := Edited.done_inj hright
              exact Edited.done_inj (hleft.symm.trans hyz)
          | some u =>
              obtain ⟨uv, rfl, huv⟩ := mergeChild_some hxy
              obtain ⟨left, rfl, huvw⟩ := mergeChild_some hleft
              obtain ⟨right, rfl, huvw'⟩ := mergeChild_some hright
              exact congrArg some (h u rfl v rfl w rfl uv left vw right huv huvw hvw huvw')

end Children

section Entries

variable {strategy : MergeStrategy} {here : Path} {a b c ab left bc right : Mapping}

/-- Keys arrive in the same order both ways. -/
theorem keys_regroup (keysA keysB keysC : List String) :
    (keysA ++ keysB.filter (· ∉ keysA)) ++
        keysC.filter (· ∉ keysA ++ keysB.filter (· ∉ keysA)) =
      keysA ++ (keysB ++ keysC.filter (· ∉ keysB)).filter (· ∉ keysA) := by
  rw [List.append_assoc, List.filter_append, List.filter_filter]
  congr 2
  refine List.filter_congr fun name _ => ?_
  by_cases hname : name ∈ keysA <;> simp [hname]

/-- **Mappings regroup** if what they hold under each key does. -/
theorem regroups_mergeEntries (ha : a.keys.Nodup) (hb : b.keys.Nodup) (hc : c.keys.Nodup)
    (h : ∀ name, Regroups (mergeChild strategy (here ++ [.key name])) (a.lookup name)
      (b.lookup name) (c.lookup name)) :
    Regroups (mergeEntries strategy here) a b c := by
  intro ab left bc right hab hleft hbc hright
  have hkeysAB := keys_mergeEntries hb hab
  have hkeysBC := keys_mergeEntries hc hbc
  have hkeysLeft := keys_mergeEntries hc hleft
  have hnodupAB : (Mapping.keys ab).Nodup := hkeysAB ▸ Value.nodup_keys_overlaid hb ha
  have hnodupBC : (Mapping.keys bc).Nodup := hkeysBC ▸ Value.nodup_keys_overlaid hc hb
  have hnodupLeft : (Mapping.keys left).Nodup :=
    hkeysLeft ▸ Value.nodup_keys_overlaid hc hnodupAB
  refine Mapping.eq_of_keys_of_lookup hnodupLeft ?_ fun name _ => ?_
  · rw [hkeysLeft, hkeysAB, keys_mergeEntries hnodupBC hright, hkeysBC, keys_regroup]
  · exact h name _ _ _ _ (mergeChild_lookup hb hab name) (mergeChild_lookup hc hleft name)
      (mergeChild_lookup hc hbc name) (mergeChild_lookup hnodupBC hright name)

end Entries

namespace Value

variable {strategy : MergeStrategy} {here : Path} {v x y z old merged : Value} {m : Mapping}

/-! ## Nulls at keys -/

theorem NullFreeAtKeys.ne_null (h : v.NullFreeAtKeys) : v ≠ .null :=
  fun heq => h [] (congrArg some heq)

/-- What stands under a key of a mapping without nulls at keys has none. -/
theorem NullFreeAtKeys.lookup {name : String} (h : (Value.map m).NullFreeAtKeys)
    (hv : m.lookup name = some v) : v.NullFreeAtKeys := by
  intro names hnames
  refine h (name :: names) ?_
  rw [at?_ofKeys_cons, hv]
  exact hnames

/-- A mapping has no nulls at keys if its values have none. -/
theorem nullFreeAtKeys_map (h : ∀ entry ∈ m, entry.2.NullFreeAtKeys) :
    (Value.map m).NullFreeAtKeys := by
  rintro (_ | ⟨name, names⟩) hnull
  · exact absurd (Option.some.inj hnull) nofun
  · rw [at?_ofKeys_cons] at hnull
    obtain ⟨v, hv, hnull⟩ := Option.bind_eq_some_iff.mp hnull
    exact h _ (Mapping.mem_of_lookup hv) names hnull

/-- Other values have no keys. -/
theorem nullFreeAtKeys_of_kind (hmap : v.kind ≠ .mapping) (hnull : v.kind ≠ .null) :
    v.NullFreeAtKeys := by
  rintro (_ | ⟨name, names⟩) hat
  · obtain rfl := Option.some.inj hat
    exact hnull rfl
  · obtain ⟨entries, rfl⟩ := eq_map_of_at?_ofKeys hat
    exact hmap rfl

/-! ## Values -/

/-- What is merged is a sequence only if a sequence is merged. -/
theorem not_seq_of_mergeValue (hy : ∀ items, y ≠ .seq items)
    (h : mergeValue strategy here y old = .done merged) : ∀ items, merged ≠ .seq items := by
  cases y with
  | map source =>
      rcases mergeValue_map h with ⟨entries, out, -, -, rfl⟩ | ⟨-, rfl⟩ <;> exact nofun
  | seq items => exact absurd rfl (hy items)
  | _ =>
      obtain rfl := Edited.done_inj h
      exact nofun

/-- A sequence that is appended leaves what is no sequence as it is. -/
theorem joined_append_of_not_seq (items : List Value) (hold : ∀ existing, old ≠ .seq existing) :
    (Value.seq items).joined .append old = old := by
  cases old with
  | seq existing => exact absurd rfl (hold existing)
  | _ => rfl

/-- **What is no mapping regroups** with whatever is there. -/
theorem regroups_mergeValue_of_not_map (hz : ∀ entries, z ≠ .map entries) :
    Regroups (mergeValue strategy here) x y z := by
  intro xy left yz right hxy hleft hyz hright
  rw [mergeValue_of_not_map hz] at hleft hyz
  obtain rfl : z.joined strategy xy = left := Edited.done_inj hleft
  obtain rfl : z.joined strategy y = yz := Edited.done_inj hyz
  by_cases hover : ∀ old, z.joined strategy old = z
  · -- it overwrites what it meets
    rw [hover, mergeValue_of_not_map hz, hover] at hright
    rw [hover]
    exact Edited.done_inj hright
  · obtain ⟨items, rfl⟩ : ∃ items, z = .seq items := by
      by_contra hnot
      exact hover (joined_of_not_seq (fun items heq => hnot ⟨items, heq⟩) strategy)
    obtain rfl : strategy = .append := by
      cases strategy with
      | append => rfl
      | replace => exact absurd (joined_replace _) hover
    by_cases hy : ∀ existing, y ≠ .seq existing
    · -- it is appended to nothing, neither before nor after
      rw [joined_append_of_not_seq items hy] at hright
      rw [joined_append_of_not_seq items (not_seq_of_mergeValue hy hxy)]
      exact Edited.done_inj (hxy.symm.trans hright)
    · obtain ⟨middle, rfl⟩ := not_forall_not.mp hy
      obtain rfl := Edited.done_inj hxy
      obtain rfl := Edited.done_inj hright
      cases x with
      | seq existing => exact congrArg seq (List.append_assoc existing middle items)
      | _ => rfl

/-- **Values regroup** if the mappings among them do and the second one is no null. -/
theorem regroups_mergeValue (hy : y ≠ .null)
    (hmaps : ∀ a b c, x = .map a → y = .map b → z = .map c →
      Regroups (mergeEntries strategy here) a b c) :
    Regroups (mergeValue strategy here) x y z := by
  by_cases hz : ∀ entries, z ≠ .map entries
  · exact regroups_mergeValue_of_not_map hz
  obtain ⟨c, rfl⟩ := not_forall_not.mp hz
  intro xy left yz right hxy hleft hyz hright
  obtain ⟨b, bc, rfl, hbc, rfl⟩ := (mergeValue_map hyz).resolve_right fun h => hy h.1
  rcases mergeValue_map hxy with ⟨a, ab, rfl, hab, rfl⟩ | ⟨rfl, rfl⟩
  · obtain ⟨abc, habc, rfl⟩ := mergeValue_map_map hleft
    obtain ⟨abc', habc', rfl⟩ := mergeValue_map_map hright
    exact congrArg map (hmaps a b c rfl rfl rfl ab abc bc abc' hab habc hbc habc')
  · -- a null gives way to the second mapping or to what the third has made of it
    obtain rfl := Edited.done_inj hright
    exact Edited.done_inj (hleft.symm.trans hyz)

end Value

namespace Mapping

variable {strategy : MergeStrategy} {here : Path} {a b c : Mapping}

/-- **Trees regroup** if the second one has no null at a path of keys. -/
theorem regroups_merge (ha : (Value.map a).WellFormed) (hb : (Value.map b).WellFormed)
    (hc : (Value.map c).WellFormed) (hnull : (Value.map b).NullFreeAtKeys) :
    Regroups (mergeEntries strategy here) a b c := by
  induction hv : Value.map b using Value.map_induction generalizing b here a c with
  | leaf v hleaf => exact absurd hv.symm (hleaf b)
  | map entries ih =>
      obtain rfl := Value.map.inj hv
      obtain ⟨hnodupA, hvaluesA⟩ := Value.wellFormed_map.mp ha
      obtain ⟨hnodupB, hvaluesB⟩ := Value.wellFormed_map.mp hb
      obtain ⟨hnodupC, hvaluesC⟩ := Value.wellFormed_map.mp hc
      refine regroups_mergeEntries hnodupA hnodupB hnodupC fun name => ?_
      refine regroups_mergeChild fun u hu v hv w hw => ?_
      have hbelow := hnull.lookup hv
      refine Value.regroups_mergeValue hbelow.ne_null ?_
      rintro a' b' c' rfl rfl rfl
      exact ih _ (mem_of_lookup hv) (hvaluesA _ (mem_of_lookup hu)) (hvaluesB _ (mem_of_lookup hv))
        (hvaluesC _ (mem_of_lookup hw)) hbelow rfl

/-- **Merging page by page is merging pages beforehand.**  Where the second of three trees has
no null at a path of keys, the trees that the two ways end in are the same, in the order of
their keys too. -/
theorem merge_assoc {strategy : MergeStrategy} {a b c ab abc bc abc' : Mapping}
    (ha : (Value.map a).WellFormed) (hb : (Value.map b).WellFormed)
    (hc : (Value.map c).WellFormed) (hnull : (Value.map b).NullFreeAtKeys)
    (hab : b.merge strategy a = .done ab) (habc : c.merge strategy ab = .done abc)
    (hbc : c.merge strategy b = .done bc) (habc' : bc.merge strategy a = .done abc') :
    abc = abc' :=
  regroups_merge ha hb hc hnull ab abc bc abc' hab habc hbc habc'

/-- A page that announces a database and lists a host. -/
def basePage : Mapping :=
  [("db", .null), ("hosts", .seq [.str "ant"]), ("log", .map [("level", .str "info")])]

/-- A page that fills in the database. -/
def sitePage : Mapping :=
  [("log", .map [("file", .str "site.log")]), ("db", .map [("port", .int 1)]),
    ("hosts", .seq [.str "bee"])]

/-- A page that goes over both. -/
def localPage : Mapping :=
  [("mode", .null), ("hosts", .seq [.str "cat"]),
    ("db", .map [("user", .str "root"), ("port", .int 2)]), ("log", .map [("level", .str "off")])]

/-- The site's page has no null, so it may be merged with the local one first. -/
theorem basePage_regroups :
    (Value.map basePage).WellFormed ∧ (Value.map sitePage).WellFormed ∧
      (Value.map localPage).WellFormed ∧ (Value.map sitePage).NullFreeAtKeys ∧
      ∃ ab bc merged, sitePage.merge .append basePage = .done ab ∧
        localPage.merge .append sitePage = .done bc ∧
        localPage.merge .append ab = .done merged ∧
        bc.merge .append basePage = .done merged ∧
        merged.keys = ["db", "hosts", "log", "mode"] := by
  have hbase : (Value.map basePage).WellFormed := by
    simp [basePage, Value.WellFormed, Value.WellFormedEntries, Value.WellFormedItems]
  have hsite : (Value.map sitePage).WellFormed := by
    simp [sitePage, Value.WellFormed, Value.WellFormedEntries, Value.WellFormedItems]
  have hlocal : (Value.map localPage).WellFormed := by
    simp [localPage, Value.WellFormed, Value.WellFormedEntries, Value.WellFormedItems]
  have hnull : (Value.map sitePage).NullFreeAtKeys := by
    refine Value.nullFreeAtKeys_map fun entry hentry => ?_
    simp only [sitePage, List.mem_cons, List.not_mem_nil, or_false] at hentry
    obtain rfl | rfl | rfl := hentry
    · exact Value.nullFreeAtKeys_map <| List.forall_mem_singleton.mpr <|
        Value.nullFreeAtKeys_of_kind (by decide) (by decide)
    · exact Value.nullFreeAtKeys_map <| List.forall_mem_singleton.mpr <|
        Value.nullFreeAtKeys_of_kind (by decide) (by decide)
    · exact Value.nullFreeAtKeys_of_kind (by decide) (by decide)
  have hab := Edited.eq_done (r := sitePage.merge .append basePage) rfl
  have hbc := Edited.eq_done (r := localPage.merge .append sitePage) rfl
  have habc := Edited.eq_done
    (r := localPage.merge .append (sitePage.merge .append basePage).result) rfl
  have habc' := Edited.eq_done
    (r := (localPage.merge .append sitePage).result.merge .append basePage) rfl
  have hsame := merge_assoc hbase hsite hlocal hnull hab habc hbc habc'
  exact ⟨hbase, hsite, hlocal, hnull, _, _, _, hab, hbc, habc, hsame ▸ habc', rfl⟩

/-- A null of the second page undoes what the first one says, unless it is merged into the
third one beforehand. -/
example :
    let ab := Mapping.merge .append [("db", .null)] [("db", .map [("port", .int 1)])]
    let bc := Mapping.merge .append [("db", .map [("user", .str "root")])] [("db", .null)]
    Mapping.merge .append [("db", .map [("user", .str "root")])] ab.result =
        .done [("db", .map [("user", .str "root")])] ∧
      bc.result.merge .append [("db", .map [("port", .int 1)])] =
        .done [("db", .map [("port", .int 1), ("user", .str "root")])] := ⟨rfl, rfl⟩

end Mapping

end LayeredConfig
