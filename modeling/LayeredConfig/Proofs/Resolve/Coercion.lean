import LayeredConfig.Proofs.Resolve.Agreement
import LayeredConfig.Proofs.Resolve.Collapse
import LayeredConfig.Proofs.Resolve.Sequence

/-!
# Values inside a larger text

A text that is exactly one placeholder becomes the value, of whatever kind that is.  Inside a
larger text a value is written out, so that the text stays a text.  Which of the two it is gets
asked for every key, on the text as the keys before left it, and in every pass on the text as
the passes before left it.  So an empty value can leave a placeholder alone that was not alone
at first (`emptied_text_takes_value`).

`embedded_values_are_written_out` says when that does not happen:

* a text that does not start or does not end as a placeholder does never becomes one;
* nor does any other, if no value is empty, and none before the last pass brings in a dollar
  sign or a brace that belongs to no placeholder;
* nor does a text with a character of its own beside its placeholders, if dollar signs and
  braces belong to placeholders in the text and in all values.  Then values may be empty too.

In each case there is a property of the text that what is put in for a key does not break
(`foldlM_fillKey_str`), and that a pass hands on to the next one (`throughPasses_str`).
-/

namespace LayeredConfig

open Placeholder

/-! ## Pass after pass -/

/-- **Passes leave a text a text** if it has a property with which each pass does, and which
each pass but the last hands on. -/
theorem throughPasses_str {resolve : Pass → String → Except Unresolved Value}
    {P : String → Prop} {layers : List Layer}
    (hpass : ∀ pass ∈ passesOf layers, ∀ text v, P text → resolve pass text = .ok v →
      ∃ out, v = .str out ∧ (pass.last = false → P out))
    {text : String} (h : P text) {v : Value}
    (hv : throughPasses resolve (passesOf layers) text = .ok v) : ∃ out, v = .str out := by
  induction layers generalizing text with
  | nil => exact ⟨text, (Except.ok.inj hv).symm⟩
  | cons layer rest ih =>
      cases rest with
      | nil =>
          rw [passesOf, throughPasses_singleton] at hv
          obtain ⟨out, rfl, -⟩ := hpass _ (List.mem_singleton_self _) text v h hv
          exact ⟨out, rfl⟩
      | cons next rest =>
          obtain ⟨u, hfirst, hrest⟩ := bind_ok hv
          obtain ⟨out, rfl, hnext⟩ := hpass _ List.mem_cons_self text u h hfirst
          exact ih (fun pass hmem => hpass pass (List.mem_cons_of_mem _ hmem)) (hnext rfl) hrest

/-! ## What a pass puts in -/

/-- A pass may put the text in the place of the key's placeholder: it is the written form of
what the placeholder becomes if it stands alone. -/
def Resolver.Puts (r : Resolver) (pass : Pass) (key new : String) : Prop :=
  ∃ depth v, resolveText Trail.admits r depth [] pass (wrap key) = .ok v ∧ v.toText = new

/-- What is put in for some keys is never empty, and before the last pass it is tidy and holds
none but these keys. -/
structure Resolver.PutsSomething (r : Resolver) (K : Set String) : Prop where
  nonempty : ∀ pass ∈ r.passes, ∀ key ∈ K, ∀ new, r.Puts pass key new → new ≠ ""
  tidy : ∀ pass ∈ r.passes, pass.last = false → ∀ key ∈ K, ∀ new, r.Puts pass key new →
    TidyText K new

/-- What is put in for some keys is tidy and holds none but these keys. -/
def Resolver.PutsTidy (r : Resolver) (K : Set String) : Prop :=
  ∀ pass ∈ r.passes, ∀ key ∈ K, ∀ new, r.Puts pass key new → TidyText K new

namespace Resolver

variable {r : Resolver} {depth : Nat} {pass : Pass} {text : String} {K : Set String}

theorem puts_of_expand {key : String} (hkey : Inert key.toList) {found u : Value}
    (hfound : pass.find? key = some found)
    (h : r.expand Trail.admits (resolveText Trail.admits r depth) [] pass key found = .ok u) :
    r.Puts pass key u.toText :=
  ⟨depth + 1, u, (resolveLevel_wrap hkey hfound).trans h, rfl⟩

/-- A value without placeholders is put in as it is. -/
theorem Puts.eq_of_plain (hkeys : r.options.keyResolution = false) {key new : String}
    (hkey : Inert key.toList) {found : Value} (hfound : pass.find? key = some found)
    (hplain : ∀ text ∈ found.texts, contains text = false) (h : r.Puts pass key new) :
    new = found.toText := by
  obtain ⟨depth, v, hv, rfl⟩ := h
  cases depth with
  | zero => contradiction
  | succ depth =>
      rw [resolveText, resolveLevel_wrap hkey hfound, expand_of_plain hkeys hplain] at hv
      exact congrArg Value.toText (Except.ok.inj hv).symm

/-! ## One pass -/

/-- A text that does not start or end as a placeholder does stays one. -/
theorem resolveLevel_flanked {v : Value} (h : Flanked text)
    (hv : r.resolveLevel Trail.admits (resolveText Trail.admits r depth) [] pass text = .ok v) :
    ∃ out, v = .str out ∧ Flanked out := by
  obtain ⟨collapsed, hcollapsed, hkeys⟩ := bind_ok hv
  have hstill : Flanked collapsed :=
    collapse_keeps (fun key new text h => h.substitute key new) h hcollapsed
  exact foldlM_fillKey_str (Q := fun _ => True) (P := fun _ => Flanked)
    (fun key _ _ => not_flanked_wrap key) (fun _ _ _ h => h)
    (fun key _ text _ u _ h _ _ => h.substitute key u.toText) (fun _ _ => trivial) hstill hkeys

/-- The keys of a text, with what is known of them. -/
theorem inert_and_mem_of_mem_eraseDups (hK : ∀ key ∈ keys text, key ∈ K) :
    ∀ key ∈ (keys text).eraseDups, Inert key.toList ∧ key ∈ K := fun key hkey =>
  ⟨inert_of_mem_keys (List.mem_eraseDups.mp hkey), hK key (List.mem_eraseDups.mp hkey)⟩

/-- A text that is not one placeholder is written out, if nothing that is put in is empty. -/
theorem resolveLevel_inside {v : Value} (h : Apart K text)
    (hputs : ∀ key ∈ K, ∀ new, r.Puts pass key new → new ≠ "")
    (hv : r.resolveLevel Trail.admits (resolveText Trail.admits r depth) [] pass text = .ok v) :
    ∃ out, v = .str out := by
  rw [resolveLevel_of_flat h.flat] at hv
  obtain ⟨out, hout, -⟩ := foldlM_fillKey_str (P := AllInside) (fun _ _ _ => not_allInside_wrap)
    (fun _ _ _ => AllInside.tail)
    (fun key ks text found u ⟨hinert, hmem⟩ h hfound hexpand =>
      h.substitute (hputs key hmem _ (puts_of_expand hinert hfound hexpand)))
    (inert_and_mem_of_mem_eraseDups h.keys_subset) (allInside_keys h.sole) hv
  exact ⟨out, hout⟩

/-- A text that is not one placeholder, and in which nothing is nested, stays one, if everything
that is put in is tidy and not empty. -/
theorem resolveLevel_apart {v : Value} (h : Apart K text)
    (hputs : ∀ key ∈ K, ∀ new, r.Puts pass key new → new ≠ "" ∧ TidyText K new)
    (hv : r.resolveLevel Trail.admits (resolveText Trail.admits r depth) [] pass text = .ok v) :
    ∃ out, v = .str out ∧ Apart K out := by
  rw [resolveLevel_of_flat h.flat] at hv
  refine foldlM_fillKey_str (P := fun _ => Apart K) (fun key _ hkey => not_apart_wrap hkey.1)
    (fun _ _ _ h => h) (fun key ks text found u hkey h hfound hexpand => ?_)
    (inert_and_mem_of_mem_eraseDups h.keys_subset) h hv
  obtain ⟨hne, htidy⟩ := hputs key hkey.2 _ (puts_of_expand hkey.1 hfound hexpand)
  exact h.substitute htidy hne key

/-- A tidy text with a character beside its placeholders stays one, whatever tidy texts are put
in. -/
theorem resolveLevel_lettered {v : Value} (h : Lettered K text)
    (hputs : ∀ key ∈ K, ∀ new, r.Puts pass key new → TidyText K new)
    (hv : r.resolveLevel Trail.admits (resolveText Trail.admits r depth) [] pass text = .ok v) :
    ∃ out, v = .str out ∧ Lettered K out := by
  rw [resolveLevel_of_flat h.nestedKeys_eq_nil] at hv
  refine foldlM_fillKey_str (P := fun _ => Lettered K)
    (fun key _ hkey => not_lettered_wrap hkey.1) (fun _ _ _ h => h)
    (fun key ks text found u hkey h hfound hexpand => ?_)
    (inert_and_mem_of_mem_eraseDups h.keys_subset) h hv
  exact h.substitute (hputs key hkey.2 _ (puts_of_expand hkey.1 hfound hexpand)) key

/-! ## All passes -/

/-- A run that returns a value does so level by level. -/
theorem ReturnsText.str {P : String → Prop} {v : Value} (hv : r.ReturnsText text (.ok v))
    (hlevel : ∀ depth, ∀ pass ∈ r.passes, ∀ text v, P text →
      r.resolveLevel Trail.admits (resolveText Trail.admits r depth) [] pass text = .ok v →
        ∃ out, v = .str out ∧ (pass.last = false → P out))
    (h : P text) : ∃ out, v = .str out := by
  obtain ⟨-, depth, hrun⟩ := hv
  refine throughPasses_str (fun pass hpass text v htext hstep => ?_) h hrun
  cases depth with
  | zero => contradiction
  | succ depth => exact hlevel depth pass hpass text v htext hstep

end Resolver

/-- **Values inside a larger text are written out.**  Whatever the layers and the options, a
text that is not one placeholder and in which nothing is nested resolves to a text, if it does
not start or end as a placeholder does, or nothing that is put in is empty and nothing that is
put in before the last pass opens or closes anything, or the text has a character beside its
placeholders and nothing opens or closes anything in it and in what is put in. -/
theorem embedded_values_are_written_out {r : Resolver} {text : String}
    (hflat : nestedKeys text = []) (hsole : soleKey? text = none) {v : Value}
    (hv : r.ReturnsText text (.ok v))
    (h : Flanked text ∨
      (∃ K : Set String, (∀ key ∈ keys text, key ∈ K) ∧ r.PutsSomething K) ∨
      ∃ K : Set String, Lettered K text ∧ r.PutsTidy K) :
    ∃ out, v = .str out := by
  rcases h with hflanked | ⟨K, hK, hputs⟩ | ⟨K, hlettered, hputs⟩
  · refine hv.str (P := Flanked) (fun depth pass _ text v h hstep => ?_) hflanked
    obtain ⟨out, rfl, hout⟩ := Resolver.resolveLevel_flanked h hstep
    exact ⟨out, rfl, fun _ => hout⟩
  · refine hv.str (P := Apart K) (fun depth pass hpass text v h hstep => ?_) ⟨hflat, hsole, hK⟩
    have hnonempty := hputs.nonempty pass hpass
    cases hlast : pass.last with
    | true =>
        obtain ⟨out, rfl⟩ := Resolver.resolveLevel_inside h hnonempty hstep
        exact ⟨out, rfl, nofun⟩
    | false =>
        have htidy := hputs.tidy pass hpass hlast
        obtain ⟨out, rfl, hout⟩ := Resolver.resolveLevel_apart h
          (fun key hkey new hnew => ⟨hnonempty key hkey new hnew, htidy key hkey new hnew⟩) hstep
        exact ⟨out, rfl, fun _ => hout⟩
  · refine hv.str (P := Lettered K) (fun depth pass hpass text v h hstep => ?_) hlettered
    obtain ⟨out, rfl, hout⟩ := Resolver.resolveLevel_lettered h (hputs pass hpass) hstep
    exact ⟨out, rfl, fun _ => hout⟩

/-- A layer with an empty text beside a number. -/
def spareLayer : Layer :=
  ⟨"spare", [("a", .str ""), ("b", .int 5)]⟩

/-- Behind other characters, beside itself, and with only a character and an empty text beside
it the number is written out. -/
theorem spare_number_is_written_out :
    let r : Resolver := ⟨[spareLayer], ⟨true, false, false⟩⟩
    (Flanked "at ${/b}" ∧ ∃ out, r.ReturnsText "at ${/b}" (.ok (.str out))) ∧
      (r.PutsSomething {"/b"} ∧ ∃ out, r.ReturnsText "${/b}${/b}" (.ok (.str out))) ∧
      Lettered {"/a", "/b"} "${/a}:${/b}" ∧ r.PutsTidy {"/a", "/b"} ∧
        ∃ out, r.ReturnsText "${/a}:${/b}" (.ok (.str out)) := by
  intro r
  have hr : r.passes = [⟨spareLayer, true⟩] := rfl
  have hreturns : ∀ text, ∃ v, r.ReturnsText text (.ok v) := by
    intro text
    cases hvalue : r.resolveScalar text with
    | ok v => exact ⟨v, hvalue ▸ Resolver.returnsText_resolveScalar (by simp [hvalue])⟩
    | error e => exact absurd (Resolver.resolveScalar_error hr hvalue).1 Bool.false_ne_true
  have ha : ∀ new, r.Puts ⟨spareLayer, true⟩ "/a" new → new = "" := by
    intro new h
    have hfound : (Pass.mk spareLayer true).find? "/a" = some (.str "") := rfl
    exact h.eq_of_plain rfl (by decide) hfound (by decide)
  have hb : ∀ new, r.Puts ⟨spareLayer, true⟩ "/b" new → new = "5" := by
    intro new h
    have hfound : (Pass.mk spareLayer true).find? "/b" = some (.int 5) := rfl
    have hwritten : (Value.int 5).toText = "5" := by decide
    exact (h.eq_of_plain rfl (by decide) hfound (by decide)).trans hwritten
  have hflanked : Flanked "at ${/b}" := Or.inl (by decide)
  have hsomething : r.PutsSomething {"/b"} := by
    refine ⟨fun pass hpass key hkey new h => ?_, fun pass hpass hlast => ?_⟩
    · obtain rfl : pass = ⟨spareLayer, true⟩ := List.mem_singleton.mp hpass
      obtain rfl : key = "/b" := hkey
      rw [hb new h]
      decide
    · obtain rfl : pass = ⟨spareLayer, true⟩ := List.mem_singleton.mp hpass
      contradiction
  have htidy : r.PutsTidy {"/a", "/b"} := by
    intro pass hpass key hkey new h
    obtain rfl : pass = ⟨spareLayer, true⟩ := List.mem_singleton.mp hpass
    refine tidyText_of_key_chars ?_
    rcases hkey with rfl | rfl
    · rw [ha new h]
      decide
    · rw [hb new h]
      decide
  have hkeys : ∀ key ∈ keys "${/b}${/b}", key ∈ ({"/b"} : Set String) := by
    have hlist : keys "${/b}${/b}" = ["/b", "/b"] := by decide
    intro key hkey
    obtain rfl : key = "/b" := by simpa [hlist] using hkey
    rfl
  have hlettered : Lettered {"/a", "/b"} "${/a}:${/b}" := by
    have hpieces : pieces "${/a}:${/b}".toList =
        [.hole "/a".toList, .char ':', .hole "/b".toList] := by decide
    have hlist : keys "${/a}:${/b}" = ["/a", "/b"] := by decide
    refine ⟨⟨fun c hc => ?_, fun key hkey => ?_⟩, ':', ?_⟩
    · rw [hpieces] at hc
      obtain rfl : c = ':' := by simpa using hc
      decide
    · have heither : key = "/a" ∨ key = "/b" := by simpa [hlist] using hkey
      exact heither
    · rw [hpieces]
      simp
  obtain ⟨v, hv⟩ := hreturns "at ${/b}"
  obtain ⟨w, hw⟩ := hreturns "${/b}${/b}"
  obtain ⟨u, hu⟩ := hreturns "${/a}:${/b}"
  obtain ⟨out, rfl⟩ := embedded_values_are_written_out (by decide) (by decide) hv
    (Or.inl hflanked)
  obtain ⟨out', rfl⟩ := embedded_values_are_written_out (by decide) (by decide) hw
    (Or.inr (Or.inl ⟨_, hkeys, hsomething⟩))
  obtain ⟨out'', rfl⟩ := embedded_values_are_written_out (by decide) (by decide) hu
    (Or.inr (Or.inr ⟨_, hlettered, htidy⟩))
  exact ⟨⟨hflanked, out, hv⟩, ⟨hsomething, out', hw⟩, hlettered, htidy, out'', hu⟩

/-! ## Where a value is not written out -/

/-- Two placeholders side by side. -/
def Placeholder.pair (first second : String) : String :=
  String.ofList (wrapChars first.toList ++ wrapChars second.toList)

/-- **An empty value leaves its neighbour alone.**  Against one layer, two placeholders side by
side become the value of the second one, of whatever kind it is, if that of the first one is the
empty text. -/
theorem Resolver.resolveScalar_pair {r : Resolver} {pass : Pass} (hr : r.passes = [pass])
    {first second : String} (hfirst : Inert first.toList) (hsecond : Inert second.toList)
    (hne : first ≠ second) (hempty : pass.find? first = some (.str "")) {found : Value}
    (hfound : pass.find? second = some found) :
    r.resolveScalar (pair first second) =
      r.expand Trail.admits r.auditedText [] pass second found := by
  have hpieces : pieces (pair first second).toList =
      [.hole first.toList, .hole second.toList] := by
    have hlast := pieces_wrapChars_append hsecond []
    rw [List.append_nil] at hlast
    rw [pair, String.toList_ofList, pieces_wrapChars_append hfirst, hlast]
    rfl
  have hflat : nestedKeys (pair first second) = [] := by
    rw [nestedKeys, hpieces]
    rfl
  have hkeys : (keys (pair first second)).eraseDups = [first, second] := by
    rw [keys, hpieces]
    simp [Piece.key?, List.eraseDups_cons, hne.symm]
  have hput : substitute first "" (pair first second) = wrap second := by
    have hother : Piece.hole second.toList ≠ .hole first.toList := by
      simpa [String.toList_inj] using hne.symm
    refine String.toList_inj.mp ?_
    rw [toList_substitute, hpieces, wrap, String.toList_ofList]
    simp [Piece.charsWith_of_ne hother, Piece.chars]
  have hpair : pair first second ≠ wrap first := by
    intro heq
    rw [heq, keys_wrap hfirst] at hkeys
    simp [List.eraseDups_cons] at hkeys
  have hnothing : r.expand Trail.admits r.auditedText [] pass first (.str "") =
      .ok (.str "") := by
    by_cases hadmits : Trail.admits [] (pathText first) = true
    · rw [expand_str hadmits, if_neg (by simp [contains, pieces])]
    · exact expand_of_not_admits (by simpa using hadmits) _
  rw [resolveScalar_of_flat hr hflat, hkeys, foldlM_fillKey_put hempty hnothing hpair,
    Value.toText, hput, ← resolveLevel_wrap hsecond hfound,
    resolveLevel_of_flat (nestedKeys_wrap hsecond), keys_wrap hsecond]
  rfl

/-- A text that is not one placeholder, and in which nothing is nested, becomes a number. -/
theorem emptied_text_takes_value :
    let r : Resolver := ⟨[spareLayer], ⟨true, false, false⟩⟩
    nestedKeys "${/a}${/b}" = [] ∧ soleKey? "${/a}${/b}" = none ∧
      r.resolveScalar "${/a}${/b}" = .ok (.int 5) := by
  intro r
  have hr : r.passes = [⟨spareLayer, true⟩] := rfl
  have hpair : pair "/a" "/b" = "${/a}${/b}" := by decide
  refine ⟨by decide, by decide, ?_⟩
  rw [← hpair, Resolver.resolveScalar_pair hr (by decide) (by decide) (by decide) rfl rfl,
    Resolver.expand_of_plain rfl (by decide)]

end LayeredConfig
