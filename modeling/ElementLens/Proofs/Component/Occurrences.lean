/-
Registrations are found wherever they stand.

A search for registrations goes on behind each one that it finds. No registration can
begin within another one, since the text that stands before a tag name has a capital
letter, which no tag name has, and a point, which no class name has. So nothing is
missed:

* **`Registration.apart_pattern`** — no registration begins within another one;
* **`Registration.standsAt_iff`** — the places where a registration stands;
* **`Registration.tagOf?_scan_eq_some_iff`** — the tag name of a class is the one of its
  last registration.
-/
import ElementLens.Component.Registration
import ElementLens.Proofs.Text.Matches

namespace ElementLens.Registration

open Text (Captures Pattern)
open Text.Pattern (Reads match?)

variable {cs word rest first last tag name : List Char} {captures : Captures}

/-! ### The shape of a registration -/

/-- The text of a registration, letter for letter. -/
def written (tag name : List Char) : List Char :=
  opening ++ (tag ++ (separator ++ (name ++ [')'])))

theorem reads_pattern_iff : Reads pattern captures word
    ↔ ∃ tag name, captures = [tag, name] ∧ word = written tag name
      ∧ (tag ≠ [] ∧ ∀ c ∈ tag, isTagChar c = true)
      ∧ (name ≠ [] ∧ ∀ c ∈ name, c.isAlphanum = true) := by
  constructor
  · rintro (_ | ⟨_, _ | _ | ⟨hne, hall, _ | ⟨_, _ | _ | ⟨hne', hall', _ | ⟨_, _ | _⟩⟩⟩⟩⟩)
    exact ⟨_, _, rfl, rfl, ⟨hne, hall⟩, ⟨hne', hall'⟩⟩
  · rintro ⟨tag, name, rfl, rfl, ⟨hne, hall⟩, ⟨hne', hall'⟩⟩
    exact .literal _ (.group hne hall (.literal _ (.group hne' hall' (.literal _ .nil))))

theorem delimited_pattern : pattern.Delimited :=
  ⟨⟨_, _, _, rfl, by decide⟩, ⟨_, _, _, rfl, by decide⟩, trivial⟩

/-! ### Registrations do not overlap -/

/-- No registration begins within a part of a text, whatever text follows. -/
def Free (part rest : List Char) : Prop :=
  ∀ last, last <:+ part → last ≠ [] → ¬ opening <+: last ++ rest

theorem Free.append (h : Free first (last ++ rest)) (h' : Free last rest) :
    Free (first ++ last) rest := by
  rintro part ⟨before, heq⟩ hne
  rcases List.append_eq_append_iff.1 heq with ⟨between, hfirst, hpart⟩ | ⟨between, hbefore, hlast⟩
  · by_cases hnil : between = []
    · rw [hnil, List.nil_append] at hpart
      rw [hpart] at hne ⊢
      exact h' last (List.suffix_refl last) hne
    · rw [hpart, List.append_assoc]
      exact h between ⟨before, hfirst.symm⟩ hnil
  · exact h' part ⟨between, hlast.symm⟩ hne

/-- A registration begins with its first letter. -/
theorem free_of_notMem (h : 'c' ∉ first) : Free first rest := by
  rintro (_ | ⟨c, part⟩) hsuffix hne hopening
  · exact hne rfl
  · have hc : 'c' = c := (List.cons_prefix_cons.1 hopening).1
    exact h (hc ▸ hsuffix.subset List.mem_cons_self)

/-- In the opening of a registration the characters of a class end with another one than
behind a text of such characters. -/
theorem free_of_class {allowed : Char → Bool} {run : List Char} {stop stop' : Char}
    {behind : List Char} (hopening : opening = run ++ stop :: behind)
    (hrun : run.all allowed = true) (hstop : allowed stop = false)
    (hstop' : allowed stop' = false) (hne : stop ≠ stop')
    (hall : ∀ c ∈ first, allowed c = true) : Free first (stop' :: rest) := by
  rintro part hsuffix - ⟨more, heq⟩
  have hpart : ∀ c ∈ part, allowed c = true := fun c hc => hall c (hsuffix.subset hc)
  rw [hopening, List.append_assoc, List.cons_append] at heq
  exact hne (Text.Pattern.eq_of_append_cons (List.all_eq_true.1 hrun) hpart hstop hstop' heq).2

theorem free_written (htag : ∀ c ∈ tag, isTagChar c = true)
    (hname : ∀ c ∈ name, c.isAlphanum = true) (rest : List Char) :
    Free (written tag name).tail rest := by
  -- a registration within the tag name would have a capital letter in the tag name, one
  -- within the class name would have a point where the class name ends
  have hcapital : opening = "custom".toList ++ 'E' :: "lements.define('".toList := rfl
  have hpoint : opening = "customElements".toList ++ '.' :: "define('".toList := rfl
  have hopening : Free opening.tail (tag ++ (separator ++ (name ++ [')'])) ++ rest) :=
    free_of_notMem (by decide)
  have htag' : Free tag (separator ++ (name ++ [')']) ++ rest) :=
    free_of_class hcapital (by decide) (by decide) (by decide) (by decide) htag
  have hseparator : Free separator (name ++ [')'] ++ rest) := free_of_notMem (by decide)
  have hname' : Free name ([')'] ++ rest) :=
    free_of_class hpoint (by decide) (by decide) (by decide) (by decide) hname
  have hclosing : Free [')'] rest := free_of_notMem (by decide)
  exact hopening.append (htag'.append (hseparator.append (hname'.append hclosing)))

theorem match?_eq_none (h : ¬ opening <+: cs) : match? pattern cs = none := by
  rw [pattern, match?, Option.bind_eq_none_iff]
  intro behind hbehind
  exact absurd ⟨behind, List.isPrefixOf?_eq_some_iff_append_eq.1 hbehind⟩ h

/-- No registration begins within another one. -/
theorem apart_pattern : pattern.Apart where
  ne_nil captures word h := by
    obtain ⟨tag, name, -, rfl, -, -⟩ := reads_pattern_iff.1 h
    exact List.cons_ne_nil _ _
  within captures first last rest h hfirst hlast := by
    obtain ⟨tag, name, -, heq, ⟨-, htag⟩, ⟨-, hname⟩⟩ := reads_pattern_iff.1 h
    have htail : first.tail ++ last = (written tag name).tail := by
      rw [← heq, List.tail_append_of_ne_nil hfirst]
    exact match?_eq_none (free_written htag hname rest last ⟨first.tail, htail⟩ hlast)

/-! ### The registrations of a text -/

/-- The registration at the front of a text. -/
def front? (cs : List Char) : Option Registration :=
  (match? pattern cs).bind fun found => ofCaptures? found.1

theorem front?_eq_some_iff {r : Registration} : front? cs = some r
    ↔ (r.tagName.toList ≠ [] ∧ ∀ c ∈ r.tagName.toList, isTagChar c = true)
      ∧ (r.constructorName.toList ≠ [] ∧ ∀ c ∈ r.constructorName.toList, c.isAlphanum = true)
      ∧ ∃ rest, cs = written r.tagName.toList r.constructorName.toList ++ rest := by
  rw [front?, Option.bind_eq_some_iff]
  constructor
  · rintro ⟨⟨captures, rest⟩, hmatch, hr⟩
    obtain ⟨word, rfl, hword⟩ := Text.Pattern.reads_of_match? hmatch
    obtain ⟨tag, name, rfl, rfl, htag, hname⟩ := reads_pattern_iff.1 hword
    obtain rfl := Option.some.inj hr
    simp only [String.toList_ofList]
    exact ⟨htag, hname, rest, rfl⟩
  · rintro ⟨htag, hname, rest, rfl⟩
    have hword := reads_pattern_iff.2 ⟨_, _, rfl, rfl, htag, hname⟩
    refine ⟨(_, rest), (Text.Pattern.match?_eq_some_iff delimited_pattern).2 ⟨_, rfl, hword⟩, ?_⟩
    simp [ofCaptures?]

/-- A search finds the registrations at all places of a text. -/
theorem scan_eq (text : String) : scan text = text.toList.tails.filterMap front? := by
  rw [scan, apart_pattern.findAll_eq, Text.Pattern.everywhere, List.filterMap_filterMap]
  congr 1
  funext cs
  rw [front?]
  cases match? pattern cs <;> rfl

/-! ### The last registration of a class -/

theorem tagOf?_append (rs rs' : List Registration) (name : String) :
    tagOf? (rs ++ rs') name = (tagOf? rs' name).or (tagOf? rs name) := by
  rw [tagOf?, List.reverse_append, List.find?_append, Option.map_or]
  rfl

theorem isSome_tagOf? {rs : List Registration} {r : Registration} (h : r ∈ rs) :
    (tagOf? rs r.constructorName).isSome = true := by
  rw [tagOf?, Option.isSome_map, List.find?_isSome]
  exact ⟨r, List.mem_reverse.2 h, by simp⟩

theorem mem_tails_filterMap {r : Registration} :
    r ∈ cs.tails.filterMap front? ↔ ∃ before after, cs = before ++ after ∧ front? after = some r := by
  simp only [List.mem_filterMap, List.mem_tails]
  constructor
  · rintro ⟨after, ⟨before, rfl⟩, h⟩
    exact ⟨before, after, rfl, h⟩
  · rintro ⟨before, after, rfl, h⟩
    exact ⟨after, ⟨before, rfl⟩, h⟩

/-- A class has the tag name of a registration behind which it is not registered again. -/
theorem last_of_tagOf? {name tag : String}
    (h : tagOf? (cs.tails.filterMap front?) name = some tag) :
    ∃ before after, cs = before ++ after ∧ front? after = some ⟨name, tag⟩
      ∧ ∀ before' after' other, cs = before' ++ after' → front? after' = some ⟨name, other⟩ →
        before'.length ≤ before.length := by
  induction cs with
  | nil => exact absurd h (by simp [show front? [] = none from rfl, tagOf?])
  | cons c cs ih =>
    rw [List.tails_cons, ← List.singleton_append, List.filterMap_append, tagOf?_append] at h
    rcases Option.or_eq_some_iff.1 h with hlater | ⟨hnone, hhere⟩
    · obtain ⟨before, after, rfl, hafter, hlast⟩ := ih hlater
      refine ⟨c :: before, after, rfl, hafter, fun before' after' other heq h' => ?_⟩
      cases before' with
      | nil => exact Nat.zero_le _
      | cons d before' =>
        exact Nat.succ_le_succ (hlast before' after' other (List.cons.inj heq).2 h')
    · obtain ⟨r, hfind, rfl⟩ := Option.map_eq_some_iff.1 hhere
      obtain rfl : r.constructorName = name := by simpa using List.find?_some hfind
      have hfront : front? (c :: cs) = some r := by
        simpa using List.mem_reverse.1 (List.mem_of_find?_eq_some hfind)
      refine ⟨[], c :: cs, rfl, hfront, fun before' after' other heq h' => ?_⟩
      cases before' with
      | nil => exact Nat.le_refl _
      | cons d before' =>
        -- a later one would have been found
        have hmem := mem_tails_filterMap.2 ⟨before', after', (List.cons.inj heq).2, h'⟩
        have hsome := isSome_tagOf? hmem
        rw [hnone] at hsome
        exact absurd hsome (by simp)

/-- A registration of a class under a tag name stands in a text, behind so many
characters. -/
def StandsAt (text : String) (place : Nat) (name tag : String) : Prop :=
  (tag ≠ "" ∧ ∀ c ∈ tag.toList, isTagChar c = true)
    ∧ (name ≠ "" ∧ ∀ c ∈ name.toList, c.isAlphanum = true)
    ∧ ∃ before after : String, before.length = place
      ∧ text = before ++ ("customElements.define('" ++ tag ++ "', " ++ name ++ ")") ++ after

theorem standsAt_iff {text : String} {place : Nat} {name tag : String} :
    StandsAt text place name tag ↔ ∃ before after, before.length = place
      ∧ text.toList = before ++ after ∧ front? after = some ⟨name, tag⟩ := by
  have hwritten : ("customElements.define('" ++ tag ++ "', " ++ name ++ ")").toList
      = written tag.toList name.toList := by
    simp only [String.toList_append, List.append_assoc]
    rfl
  simp only [front?_eq_some_iff, StandsAt, ← String.toList_eq_nil_iff, ne_eq]
  constructor
  · rintro ⟨htag, hname, before, after, rfl, rfl⟩
    refine ⟨before.toList, written tag.toList name.toList ++ after.toList,
      String.length_toList, ?_, htag, hname, after.toList, rfl⟩
    rw [String.toList_append, String.toList_append, hwritten, List.append_assoc]
  · rintro ⟨before, _, rfl, htext, htag, hname, after, rfl⟩
    refine ⟨htag, hname, String.ofList before, String.ofList after, by simp, ?_⟩
    rw [← String.toList_inj, htext, String.toList_append, String.toList_append, hwritten]
    simp

/-- **Every registration is found, and the last one of a class counts.** Registrations
are the texts of the exact shape, wherever they stand. -/
theorem tagOf?_scan_eq_some_iff (text name tag : String) :
    (tagOf? (scan text) name = some tag
        ↔ ∃ place, StandsAt text place name tag
          ∧ ∀ place' other, StandsAt text place' name other → place' ≤ place)
      ∧ (⟨name, tag⟩ ∈ scan text ↔ ∃ place, StandsAt text place name tag) := by
  rw [scan_eq]
  have hmem (tag : String) : ⟨name, tag⟩ ∈ text.toList.tails.filterMap front?
      ↔ ∃ place, StandsAt text place name tag := by
    rw [mem_tails_filterMap]
    simp only [standsAt_iff]
    constructor
    · rintro ⟨before, after, h⟩
      exact ⟨_, before, after, rfl, h⟩
    · rintro ⟨_, before, after, rfl, h⟩
      exact ⟨before, after, h⟩
  have hlast {tag : String} (h : tagOf? (text.toList.tails.filterMap front?) name = some tag) :
      ∃ place, StandsAt text place name tag
        ∧ ∀ place' other, StandsAt text place' name other → place' ≤ place := by
    obtain ⟨before, after, htext, hafter, hlast⟩ := last_of_tagOf? h
    refine ⟨before.length, standsAt_iff.2 ⟨before, after, rfl, htext, hafter⟩, ?_⟩
    intro place other hother
    obtain ⟨before', after', rfl, htext', hafter'⟩ := standsAt_iff.1 hother
    exact hlast before' after' other htext' hafter'
  refine ⟨⟨hlast, ?_⟩, hmem tag⟩
  rintro ⟨place, hplace, hlater⟩
  obtain ⟨found, hfound⟩ := Option.isSome_iff_exists.1 (isSome_tagOf? ((hmem tag).2 ⟨place, hplace⟩))
  -- of two last registrations neither stands behind the other
  obtain ⟨place', hplace', hlater'⟩ := hlast hfound
  obtain rfl : place = place' :=
    Nat.le_antisymm (hlater' place tag hplace) (hlater place' found hplace')
  obtain ⟨before, after, hlength, htext, hafter⟩ := standsAt_iff.1 hplace
  obtain ⟨before', after', hlength', htext', hafter'⟩ := standsAt_iff.1 hplace'
  obtain ⟨-, rfl⟩ := List.append_inj (htext.symm.trans htext') (hlength.trans hlength'.symm)
  obtain ⟨-, rfl⟩ := Registration.mk.inj (Option.some.inj (hafter.symm.trans hafter'))
  exact hfound

end ElementLens.Registration
