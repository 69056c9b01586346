import LayeredConfig.Proofs.Override.Filing
import LayeredConfig.Proofs.Tree.Assignment

/-!
# The two accounts of the overrides

Overrides are kept under their paths as written and in a tree.  This module follows the two
through all that can be done to overrides from outside: adding one at any path, also through the
items of sequences, and checking them all (`Overrides.Reached`).

An override that is added is written into the tree first.  If the tree does not take it, it is
not kept under its path either, but its way into the tree may have been made down to a null
(`Overrides.Strays`).  The null is all that it leaves
(`Overrides.rejected_put_leaves_null_at_most`), and a page that the overrides are merged into is
none the better for it (`Overrides.rejected_put_empties_page`).

What keeps the accounts together is that the tree holds nothing that no override accounts for:
every node stands at the path of an override or below it, or it is a mapping on the way to one
(`Overrides.Covered`).  In particular an index of a path leads through a sequence that another
override has put there.  So an override whose path meets no other one goes down by keys alone,
and no write at another path can reach it (`Overrides.flat_and_nested_agree`).
-/

namespace LayeredConfig

namespace Overrides

/-- One of the paths leads to the place or to a node above it. -/
def Covers (paths : List String) (r : Path) : Prop :=
  ∃ path ∈ paths, ∃ p, Path.read? path = some p ∧ p <+: r

/-- Every node of the tree is covered by one of the paths, or it is a mapping on the way to
one. -/
def Covered (paths : List String) (tree : Mapping) : Prop :=
  ∀ r w, tree.get? r = some w →
    Covers paths r ∨
      (∃ m, w = .map m) ∧ ∃ path ∈ paths, ∃ p, Path.read? path = some p ∧ r <+: p

/-- The path as written, which is read as `p`, meets none of the others. -/
def Lone (paths : List String) (path : String) (p : Path) : Prop :=
  ∀ other ∈ paths, other ≠ path → ∀ q, Path.read? other = some q → ¬ p <+: q ∧ ¬ q <+: p

instance (paths : List String) (r : Path) : Decidable (Covers paths r) :=
  inferInstanceAs (Decidable (∃ path ∈ paths, ∃ p ∈ Path.read? path, p <+: r))

instance (paths : List String) (path : String) (p : Path) : Decidable (Lone paths path p) :=
  inferInstanceAs (Decidable (∀ other ∈ paths, other ≠ path →
    ∀ q ∈ Path.read? other, ¬ p <+: q ∧ ¬ q <+: p))

/-- The path goes on with an index where its steps `q` lead nowhere. -/
structure Strays (o : Overrides) (path : String) (q : Path) : Prop where
  root : q ≠ []
  nowhere : o.nested.get? q = none
  admitted : (Value.map o.nested).Admits q
  index : ∃ i rest, Path.read? path = some (q ++ .index i :: rest)

variable {o o' : Overrides} {paths others : List String} {path : String} {p q r : Path}
  {value new : Value} {tree : Mapping}

/-! ## Rejected overrides -/

/-- An override that strays is rejected, and the way to its index is made. -/
theorem Strays.put (h : o.Strays path q) (value : Value) :
    ∃ nested fault, o.nested.set q .null = .done nested ∧
      o.put path value = .stop { o with nested } (.unwritable fault) := by
  obtain ⟨i, rest, hread⟩ := h.index
  have hitem : ¬ (Value.map o.nested).HasItem q i := by
    rintro ⟨items, hitems, -⟩
    have hsome := (Mapping.get?_of_ne_nil h.root).trans hitems
    exact Option.some_ne_none _ (hsome.symm.trans h.nowhere)
  have hnull : o.nested.set q .null =
      .done (o.nested.set (q ++ .index i :: rest) value).result :=
    (Mapping.result_set_of_stopped h.admitted hitem).2 h.root h.nowhere
  obtain ⟨hnone, -⟩ | ⟨p, hp, hcases⟩ := put_cases o path value
  · rw [hread] at hnone
    contradiction
  · obtain rfl : q ++ .index i :: rest = p := Option.some.inj (hread.symm.trans hp)
    rcases hcases with ⟨fault, -, hput⟩ | ⟨hdone, -⟩
    · exact ⟨_, fault, hnull, hput⟩
    · have hadmits := (Mapping.set_eq_write o.nested (by simp) value).1.mp hdone
      exact absurd (hadmits q i rest rfl) hitem

/-- An override that is rejected and does not stray leaves nothing. -/
theorem result_put_of_not_strays (hno : ∀ q, ¬ o.Strays path q)
    (hrejected : (o.put path value).failure ≠ none) : (o.put path value).result = o := by
  obtain ⟨-, hput⟩ | ⟨p, hp, ⟨fault, hfault, hput⟩ | ⟨-, hput⟩⟩ := put_cases o path value
  · rw [hput]
    rfl
  · have hnested : (o.nested.set p value).result = o.nested := by
      by_cases hroot : p = []
      · rw [hroot]
        rfl
      have hstop : ¬ (Value.map o.nested).Admits p := fun hadmits =>
        Option.some_ne_none fault
          (hfault.symm.trans ((Mapping.set_eq_write o.nested hroot value).1.mpr hadmits))
      obtain ⟨q, i, rest, rfl, hadmits, hitem⟩ := Value.exists_first_stop hstop
      refine (Mapping.result_set_of_stopped hadmits hitem).1 ?_
      by_contra hnot
      obtain ⟨hq, hnone⟩ := not_or.mp hnot
      exact hno q ⟨hq, Option.not_isSome_iff_eq_none.mp hnone, hadmits, i, rest, hp⟩
    rw [hput, hnested]
    rfl
  · rw [hput] at hrejected
    exact absurd rfl hrejected

/-- **A rejected override leaves a null at most.**  It leaves nothing at all, and is not merged
into any page, unless its path goes on with an index where it leads nowhere.  Then a null is set
in front of that index, in the tree alone, and what is in the way of the null is replaced. -/
theorem rejected_put_leaves_null_at_most (o : Overrides) (path : String) (value : Value)
    (hrejected : (o.put path value).failure ≠ none) :
    ((∀ q, ¬ o.Strays path q) → (o.put path value).result = o ∧
      ∀ page, (o.put path value).result.apply page = o.apply page) ∧
    ∀ q, o.Strays path q → ∃ nested, o.nested.set q .null = .done nested ∧
      (o.put path value).result = { o with nested } := by
  constructor
  · intro hno
    have hsame := result_put_of_not_strays hno hrejected
    refine ⟨hsame, ?_⟩
    intro page
    rw [hsame]
  · intro q hstrays
    obtain ⟨nested, fault, hnull, hput⟩ := hstrays.put value
    refine ⟨nested, hnull, ?_⟩
    rw [hput]
    rfl

/-- An override for a list of hosts. -/
def hostOverrides : Overrides :=
  ⟨[("hosts", .seq [.str "a"])], [("hosts", .seq [.str "a"])], []⟩

/-- An item behind the last one is rejected without a trace, and one of a list that is not there
leaves a null for the list. -/
theorem hostOverrides_keep_rejected_puts_out :
    (hostOverrides.put "hosts[3]" (.int 9)).failure ≠ none ∧
      (hostOverrides.put "hosts[3]" (.int 9)).result = hostOverrides ∧
      (hostOverrides.put "ports[0]" (.int 9)).failure ≠ none ∧
      ∃ nested, hostOverrides.nested.set [.key "ports"] .null = .done nested ∧
        (hostOverrides.put "ports[0]" (.int 9)).result = { hostOverrides with nested } := by
  have hbehind : (hostOverrides.put "hosts[3]" (.int 9)).failure ≠ none := by decide
  have hmissing : (hostOverrides.put "ports[0]" (.int 9)).failure ≠ none := by decide
  have hno : ∀ q, ¬ hostOverrides.Strays "hosts[3]" q := by
    rintro q ⟨hroot, hnowhere, -, i, rest, hread⟩
    have hsteps : [Segment.key "hosts", .index 3] = q ++ .index i :: rest := by
      have hpath : Path.read? "hosts[3]" = some [.key "hosts", .index 3] := by decide
      exact Option.some.inj (hpath.symm.trans hread)
    match q with
    | [] => exact hroot rfl
    | [_] =>
        obtain ⟨rfl, -⟩ := List.cons.inj hsteps
        cases hnowhere
    | _ :: _ :: q => simp at hsteps
  have hstrays : hostOverrides.Strays "ports[0]" [.key "ports"] :=
    ⟨by decide, rfl, Value.admits_ofKeys _ ["ports"], 0, [], by decide⟩
  exact ⟨hbehind, ((rejected_put_leaves_null_at_most _ _ _ hbehind).1 hno).1, hmissing,
    (rejected_put_leaves_null_at_most _ _ _ hmissing).2 _ hstrays⟩

/-- **A rejected override empties a page.**  The null that it leaves in the tree is merged into
the page in the place of a whole sequence, although no override is kept for it. -/
theorem rejected_put_empties_page :
    empty.put "list[0]" (.int 9) =
        .stop ⟨[], [("list", .null)], []⟩
          (.unwritable ⟨[.key "list", .index 0], .notASequence 0 .null⟩) ∧
      empty.apply [("list", .seq [.int 1, .int 2])] = .done [("list", .seq [.int 1, .int 2])] ∧
      (empty.put "list[0]" (.int 9)).result.apply [("list", .seq [.int 1, .int 2])] =
        .done [("list", .null)] := by
  have hput : empty.put "list[0]" (.int 9) =
      .stop ⟨[], [("list", .null)], []⟩
        (.unwritable ⟨[.key "list", .index 0], .notASequence 0 .null⟩) := by
    rfl
  refine ⟨hput, rfl, ?_⟩
  rw [hput]
  rfl

/-! ## What the tree holds -/

theorem Covers.mono (h : Covers others r) (hsub : others ⊆ paths) : Covers paths r := by
  obtain ⟨path, hpath, p, hp, hr⟩ := h
  exact ⟨path, hsub hpath, p, hp, hr⟩

theorem Covered.mono (h : Covered others tree) (hsub : others ⊆ paths) : Covered paths tree := by
  intro r w hw
  rcases h r w hw with hcovers | ⟨hmap, path, hpath, p, hp, hr⟩
  · exact Or.inl (hcovers.mono hsub)
  · exact Or.inr ⟨hmap, path, hsub hpath, p, hp, hr⟩

theorem Lone.mono (h : Lone paths path p) (hsub : others ⊆ paths) : Lone others path p := by
  intro other hother
  exact h other (hsub hother)

/-- A node that is no mapping is covered. -/
theorem Covered.covers (h : Covered paths tree) {w : Value} (hw : tree.get? r = some w)
    (hleaf : ∀ m, w ≠ .map m) : Covers paths r := by
  rcases h r w hw with hcovers | ⟨⟨m, hmap⟩, -⟩
  · exact hcovers
  · exact absurd hmap (hleaf m)

/-- **A write at a place that is covered** leaves nothing uncovered. -/
theorem Covered.set (h : Covered paths tree) (hp : Covers paths p)
    (hdone : (tree.set p new).failure = none) : Covered paths (tree.set p new).result := by
  intro r w hw
  obtain ⟨path, hpath, p₀, hread, hp₀⟩ := hp
  rcases Mapping.get?_of_set hdone hw with hbelow | ⟨hway, hmap | ⟨items, hitems⟩⟩ | hold
  · exact Or.inl ⟨path, hpath, p₀, hread, hp₀.trans hbelow⟩
  · rcases List.prefix_or_prefix_of_prefix hp₀ hway with hcovers | hleads
    · exact Or.inl ⟨path, hpath, p₀, hread, hcovers⟩
    · exact Or.inr ⟨hmap, path, hpath, p₀, hread, hleads⟩
  · exact Or.inl (h.covers hitems nofun)
  · exact h r w hold

/-- In front of an index that a write gets through there is a sequence, so the place is
covered. -/
theorem Covered.covers_of_set (h : Covered paths tree) {i : Nat} {rest : Path}
    (hdone : (tree.set (q ++ .index i :: rest) new).failure = none) : Covers paths q := by
  obtain ⟨items, hitems, -⟩ :=
    (Mapping.set_eq_write tree (by simp) new).1.mp hdone q i rest rfl
  have hroot : q ≠ [] := by
    rintro rfl
    contradiction
  exact h.covers ((Mapping.get?_of_ne_nil hroot).trans hitems) nofun

/-- The accounts balance: an override whose path meets no other one stands at its path in the
tree, and the tree holds nothing else. -/
structure Balanced (o : Overrides) : Prop where
  distinct : o.flat.keys.Nodup
  read : ∀ path ∈ o.flat.keys, ∃ p, Path.read? path = some p ∧ p ≠ []
  /-- In front of an index there is what an override has put there. -/
  indexed : ∀ path ∈ o.flat.keys, ∀ q i rest, Path.read? path = some (q ++ .index i :: rest) →
    Covers o.flat.keys q
  covered : Covered o.flat.keys o.nested
  stands : ∀ entry ∈ o.flat, ∀ p, Path.read? entry.1 = some p →
    Lone o.flat.keys entry.1 p → o.nested.get? p = some entry.2

/-- A path that meets no other one has no index. -/
theorem Lone.index_not_mem (h : Lone paths path p) (hread : Path.read? path = some p)
    (hindexed : ∀ q i rest, p = q ++ .index i :: rest → Covers paths q) (i : Nat) :
    Segment.index i ∉ p := by
  intro hmem
  obtain ⟨q, rest, rfl⟩ := List.append_of_mem hmem
  obtain ⟨other, hother, p₀, hp₀, hq⟩ := hindexed q i rest rfl
  by_cases hsame : other = path
  · subst hsame
    obtain rfl := Option.some.inj (hp₀.symm.trans hread)
    have hlength := hq.length_le
    rw [List.length_append, List.length_cons] at hlength
    omega
  · exact (h other hother hsame p₀ hp₀).2 (hq.trans (List.prefix_append ..))

theorem Balanced.index_not_mem (ho : o.Balanced) (hmem : path ∈ o.flat.keys)
    (hread : Path.read? path = some p) (hlone : Lone o.flat.keys path p) (i : Nat) :
    Segment.index i ∉ p :=
  hlone.index_not_mem hread (fun q i rest heq => ho.indexed path hmem q i rest (heq ▸ hread)) i

theorem balanced_empty : empty.Balanced where
  distinct := List.nodup_nil
  read := nofun
  indexed := nofun
  covered := by
    intro r w hw
    exact absurd ((Mapping.get?_nil r).symm.trans hw) nofun
  stands := nofun

/-- **An override that is added keeps the balance.** -/
theorem Balanced.put (ho : o.Balanced) (h : o.put path value = .done o') : o'.Balanced := by
  obtain ⟨p, hp, hne, hdone, rfl⟩ := put_eq_done h
  have hsub : o.flat.keys ⊆ Mapping.keys (o.flat.insert path value) := by
    intro other hother
    exact Mapping.mem_keys_insert.mpr (Or.inr hother)
  have hself : path ∈ Mapping.keys (o.flat.insert path value) :=
    Mapping.mem_keys_insert.mpr (Or.inl rfl)
  have hindexed : ∀ other ∈ Mapping.keys (o.flat.insert path value), ∀ q i rest,
      Path.read? other = some (q ++ .index i :: rest) →
      Covers (Mapping.keys (o.flat.insert path value)) q := by
    intro other hother q i rest hread
    rcases Mapping.mem_keys_insert.mp hother with rfl | hold
    · obtain rfl := Option.some.inj (hread.symm.trans hp)
      exact (ho.covered.covers_of_set hdone).mono hsub
    · exact (ho.indexed other hold q i rest hread).mono hsub
  refine ⟨Mapping.nodup_keys_insert ho.distinct, ?_, hindexed,
    (ho.covered.mono hsub).set ⟨path, hself, p, hp, List.prefix_rfl⟩ hdone, ?_⟩
  · intro other hother
    rcases Mapping.mem_keys_insert.mp hother with rfl | hold
    · exact ⟨p, hp, hne⟩
    · exact ho.read other hold
  · intro entry hentry p' hp' hlone
    have hmem : entry.1 ∈ Mapping.keys (o.flat.insert path value) := List.mem_map_of_mem hentry
    have hlookup := Mapping.lookup_of_mem (Mapping.nodup_keys_insert ho.distinct) hentry
    by_cases hname : entry.1 = path
    · rw [hname, Mapping.lookup_insert_self] at hlookup
      rw [hname, hp] at hp'
      rw [← Option.some.inj hp', ← Option.some.inj hlookup]
      exact (Mapping.written_of_set hdone).found
    · rw [Mapping.lookup_insert_of_ne hname] at hlookup
      have hkeys := hlone.index_not_mem hp' fun q i rest heq =>
        hindexed entry.1 hmem q i rest (heq ▸ hp')
      obtain ⟨hnot, hnot'⟩ := hlone path hself (Ne.symm hname) p hp
      have hframe := Mapping.get?_set_of_parts hdone hnot' hnot hkeys
      exact hframe.trans
        (ho.stands entry (Mapping.mem_of_lookup hlookup) p' hp' (hlone.mono hsub))

/-- **A null that is left keeps the balance**, in front of the index of a path that is kept. -/
theorem Balanced.strays (ho : o.Balanced) (hmem : path ∈ o.flat.keys) (hq : o.Strays path q)
    {nested : Mapping} (hnull : o.nested.set q .null = .done nested) :
    ({ o with nested } : Overrides).Balanced := by
  obtain ⟨i, rest, hread⟩ := hq.index
  have hcovers : Covers o.flat.keys q := ho.indexed path hmem q i rest hread
  have hdone : (o.nested.set q .null).failure = none := congrArg Edited.failure hnull
  obtain rfl : (o.nested.set q .null).result = nested := congrArg Edited.result hnull
  refine ⟨ho.distinct, ho.read, ho.indexed, ho.covered.set hcovers hdone, ?_⟩
  intro entry hentry p hp hlone
  have hkeys := ho.index_not_mem (List.mem_map_of_mem hentry) hp hlone
  have hother : path ≠ entry.1 := by
    rintro rfl
    obtain rfl := Option.some.inj (hread.symm.trans hp)
    exact hkeys i (by simp)
  have hbelow : ¬ p <+: q := by
    intro h
    exact (hlone path hmem hother _ hread).1 (h.trans (List.prefix_append ..))
  have habove : ¬ q <+: p := by
    intro h
    obtain ⟨cover, hcover, p₀, hp₀, hleads⟩ := hcovers
    by_cases hsame : cover = entry.1
    · subst hsame
      obtain rfl := Option.some.inj (hp₀.symm.trans hp)
      exact hbelow hleads
    · exact (hlone cover hcover hsame p₀ hp₀).2 (hleads.trans h)
  rw [Mapping.get?_set_of_parts hdone habove hbelow hkeys]
  exact ho.stands entry hentry p hp hlone

/-- An override that is added again under its path keeps the balance, also if it is rejected. -/
theorem Balanced.result_put (ho : o.Balanced) (hmem : path ∈ o.flat.keys) (value : Value) :
    (o.put path value).result.Balanced ∧ (o.put path value).result.flat.keys = o.flat.keys := by
  by_cases hdone : (o.put path value).failure = none
  · have hput := Edited.eq_done hdone
    obtain ⟨p, -, -, -, heq⟩ := put_eq_done hput
    refine ⟨ho.put hput, ?_⟩
    rw [heq]
    exact Mapping.keys_insert_of_mem hmem
  · by_cases hstrays : ∃ q, o.Strays path q
    · obtain ⟨q, hq⟩ := hstrays
      obtain ⟨nested, fault, hnull, hput⟩ := hq.put value
      rw [hput]
      exact ⟨ho.strays hmem hq hnull, rfl⟩
    · rw [result_put_of_not_strays (not_exists.mp hstrays) hdone]
      exact ⟨ho, rfl⟩

/-- **The check keeps the balance**, whatever comes of it. -/
theorem Balanced.validate (ho : o.Balanced) (running page : Mapping) :
    (o.validate running page).result.Balanced := by
  have hfold : (Edited.foldl (fun o edit => o.put edit.1 edit.2) o
        (o.coercions running page)).result.Balanced ∧
      (Edited.foldl (fun o edit => o.put edit.1 edit.2) o
        (o.coercions running page)).result.flat.keys = o.flat.keys := by
    refine Edited.foldl_keeps (P := fun o' : Overrides =>
      o'.Balanced ∧ o'.flat.keys = o.flat.keys) ?_ ⟨ho, rfl⟩
    rintro o' edit hedit ⟨ho', hkeys⟩
    obtain ⟨entry, hentry, hpath, -⟩ := mem_coercions.mp hedit
    have hmem : edit.1 ∈ o'.flat.keys := hkeys ▸ hpath ▸ List.mem_map_of_mem hentry
    obtain ⟨hbalanced, hkeys'⟩ := ho'.result_put hmem edit.2
    exact ⟨hbalanced, hkeys'.trans hkeys⟩
  rw [validate_eq, Edited.andThen]
  split
  · exact hfold.1
  · split <;> exact hfold.1

/-- Tokens that are read keep the balance. -/
theorem balanced_of_parse {tokens : List String} (h : parse tokens = .ok o) : o.Balanced := by
  refine foldlM_ok (P := Balanced) ?_ balanced_empty h
  intro o token o' ho hadd
  simp only [addToken] at hadd
  split at hadd
  · exact Except.ok.inj hadd ▸ ho
  · split at hadd
    · cases hadd
    · cases hadd
    · obtain ⟨filed, hput, hadd⟩ := bind_ok hadd
      obtain ⟨hdistinct, hread, hindexed, hcovered, hstands⟩ := ho.put (Edited.toExcept_eq_ok hput)
      exact Except.ok.inj hadd ▸ ⟨hdistinct, hread, hindexed, hcovered, hstands⟩

/-- Overrides that come from tokens, of which there may be none, by adding some and by checking
them against any trees, whatever comes of the checks. -/
inductive Reached : Overrides → Prop
  | parse {tokens : List String} {o : Overrides} (h : parse tokens = .ok o) : Reached o
  | put {o o' : Overrides} {path : String} {value : Value} (ho : Reached o)
      (h : o.put path value = .done o') : Reached o'
  | validate {o : Overrides} (ho : Reached o) (running page : Mapping) :
      Reached (o.validate running page).result

/-- **The accounts of all overrides balance.** -/
theorem Reached.balanced (ho : o.Reached) : o.Balanced := by
  induction ho with
  | parse h => exact balanced_of_parse h
  | put _ h ih => exact ih.put h
  | validate _ running page ih => exact ih.validate running page

/-- **The two accounts agree.**  An override whose path meets no other one stands at its path in
the tree, and every scalar or sequence of the tree stands at the path of an override or below
it. -/
theorem flat_and_nested_agree (ho : o.Reached) :
    (∀ entry ∈ o.flat, ∃ p, Path.read? entry.1 = some p ∧
      (Lone o.flat.keys entry.1 p → o.nested.get? p = some entry.2)) ∧
    ∀ r w, o.nested.get? r = some w → (∀ m, w ≠ .map m) →
      ∃ entry ∈ o.flat, ∃ p, Path.read? entry.1 = some p ∧ p <+: r := by
  have hbalanced := ho.balanced
  refine ⟨?_, ?_⟩
  · intro entry hentry
    obtain ⟨p, hp, -⟩ := hbalanced.read entry.1 (List.mem_map_of_mem hentry)
    exact ⟨p, hp, hbalanced.stands entry hentry p hp⟩
  · intro r w hw hleaf
    obtain ⟨path, hpath, p, hp, hr⟩ := hbalanced.covered.covers hw hleaf
    obtain ⟨entry, hentry, rfl⟩ := List.mem_map.mp hpath
    exact ⟨entry, hentry, p, hp, hr⟩

/-- Overrides after a check against a page with hosts: the hosts were a text before it, and the
first of the jars was filled behind the jars. -/
def shelf : Overrides :=
  ⟨[("hosts", .seq [.str "a", .str "b"]), ("jars", .seq [.null]), ("jars[0]", .str "fig")],
    [("hosts", .seq [.str "a", .str "b"]), ("jars", .seq [.str "fig"])], []⟩

/-- The hosts meet no other override and stand in the tree.  The jars meet their first item, which
has been written over. -/
theorem shelf_accounts_agree :
    shelf.Reached ∧ Lone shelf.flat.keys "hosts" [.key "hosts"] ∧
      shelf.nested.get? [.key "hosts"] = some (.seq [.str "a", .str "b"]) ∧
      ¬ Lone shelf.flat.keys "jars" [.key "jars"] ∧
      ∀ r w, shelf.nested.get? r = some w → (∀ m, w ≠ .map m) →
        ∃ entry ∈ shelf.flat, ∃ p, Path.read? entry.1 = some p ∧ p <+: r := by
  have hempty : parse [] = .ok empty := rfl
  have hhosts : empty.put "hosts" (.str "[a,b]") =
      .done ⟨[("hosts", .str "[a,b]")], [("hosts", .str "[a,b]")], []⟩ := rfl
  have hjars : Overrides.put ⟨[("hosts", .str "[a,b]")], [("hosts", .str "[a,b]")], []⟩
      "jars" (.seq [.null]) =
      .done ⟨[("hosts", .str "[a,b]"), ("jars", .seq [.null])],
        [("hosts", .str "[a,b]"), ("jars", .seq [.null])], []⟩ := rfl
  have hjar : Overrides.put ⟨[("hosts", .str "[a,b]"), ("jars", .seq [.null])],
        [("hosts", .str "[a,b]"), ("jars", .seq [.null])], []⟩ "jars[0]" (.str "fig") =
      .done ⟨[("hosts", .str "[a,b]"), ("jars", .seq [.null]), ("jars[0]", .str "fig")],
        [("hosts", .str "[a,b]"), ("jars", .seq [.str "fig"])], []⟩ := rfl
  have hfilled := (((Reached.parse hempty).put hhosts).put hjars).put hjar
  have hshelf : shelf.Reached := hfilled.validate [] [("hosts", .seq [])]
  have hread : Path.read? "hosts" = some [.key "hosts"] := by decide
  have hlone : Lone shelf.flat.keys "hosts" [.key "hosts"] := by decide
  have hmeets : ¬ Lone shelf.flat.keys "jars" [.key "jars"] := by decide
  obtain ⟨hstands, hcovered⟩ := flat_and_nested_agree hshelf
  obtain ⟨p, hp, hhost⟩ := hstands ("hosts", .seq [.str "a", .str "b"]) List.mem_cons_self
  obtain rfl := Option.some.inj (hread.symm.trans hp)
  exact ⟨hshelf, hlone, hhost hlone, hmeets, hcovered⟩

end Overrides

end LayeredConfig
