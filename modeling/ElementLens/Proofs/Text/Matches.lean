/-
What a search for a pattern finds.

A pattern matches texts of a certain shape (`Pattern.Reads`). Where a group stops is
clear if the piece behind it begins with a character that the group does not allow
(`Pattern.Delimited`); then there is one way to match at a place, if any. And if no
match can begin within another one (`Pattern.Apart`), then going on behind a match
misses nothing:

* **`Pattern.match?_eq_some_iff`** — what is matched at the front of a text;
* **`Pattern.findAll_eq`** — a search finds the matches at all places.
-/
import ElementLens.Text.Pattern
import Mathlib.Data.List.Infix

namespace ElementLens.Text.Pattern

variable {pattern : Pattern} {captures captures' : Captures} {cs word word' rest rest' : List Char}

/-! ### Texts that a pattern matches -/

/-- A text has the shape of a pattern, with certain parts of it standing where the
groups are. -/
inductive Reads : Pattern → Captures → List Char → Prop
  | nil : Reads [] [] []
  | literal (text : List Char) {pattern : Pattern} {captures : Captures} {word : List Char}
      (h : Reads pattern captures word) :
      Reads (.literal text :: pattern) captures (text ++ word)
  | group {allowed : Char → Bool} {part : List Char} {pattern : Pattern} {captures : Captures}
      {word : List Char} (hne : part ≠ []) (hall : ∀ c ∈ part, allowed c = true)
      (h : Reads pattern captures word) :
      Reads (.group allowed :: pattern) (part :: captures) (part ++ word)

/-! ### Groups -/

section Stretch

variable {α : Type} {allowed : Char → Bool} {next : List Char → Option α}
  {best : Option (List Char × α)} {taken : List Char} {found : α}

/-- A group takes characters that are allowed, with what is found behind them. -/
theorem stretch_eq_some {part : List Char}
    (h : stretch allowed next best taken cs = some (part, found)) :
    best = some (part, found) ∨ ∃ more rest, cs = more ++ rest ∧ more ≠ []
      ∧ (∀ c ∈ more, allowed c = true) ∧ part = taken.reverse ++ more
      ∧ next rest = some found := by
  induction cs generalizing best taken with
  | nil => exact .inl h
  | cons c cs ih =>
    rw [stretch] at h
    split at h
    · next hc =>
      rcases ih h with hbest | ⟨more, rest, rfl, -, hall, hpart, hnext⟩
      · -- what was found behind this character is the best so far
        cases hnext : next cs with
        | none =>
          rw [hnext] at hbest
          exact .inl hbest
        | some found' =>
          rw [hnext] at hbest
          obtain ⟨rfl, rfl⟩ := Prod.mk.inj (Option.some.inj hbest)
          exact .inr ⟨[c], cs, rfl, by simp, by simpa using hc, by simp, hnext⟩
      · refine .inr ⟨c :: more, rest, rfl, by simp, ?_, by simpa using hpart, hnext⟩
        intro d hd
        rcases List.mem_cons.1 hd with rfl | hd
        · exact hc
        · exact hall d hd
    · exact .inl h

theorem isSome_stretch_of_best (h : best.isSome = true) :
    (stretch allowed next best taken cs).isSome = true := by
  induction cs generalizing best taken with
  | nil => exact h
  | cons c cs ih =>
    rw [stretch]
    split
    · apply ih
      cases next cs with
      | none => exact h
      | some found => rfl
    · exact h

/-- A group takes some characters if there is a way to go on behind them. -/
theorem isSome_stretch {more : List Char} (hne : more ≠ [])
    (hall : ∀ c ∈ more, allowed c = true) (hnext : (next rest).isSome = true) :
    (stretch allowed next best taken (more ++ rest)).isSome = true := by
  induction more generalizing best taken with
  | nil => exact absurd rfl hne
  | cons c more ih =>
    rw [List.cons_append, stretch, if_pos (hall c List.mem_cons_self)]
    by_cases hmore : more = []
    · subst hmore
      apply isSome_stretch_of_best
      obtain ⟨found, hfound⟩ := Option.isSome_iff_exists.1 hnext
      rw [List.nil_append, hfound]
      rfl
    · exact ih hmore fun d hd => hall d (List.mem_cons_of_mem _ hd)

end Stretch

/-! ### A match at the front -/

theorem reads_of_match? (h : match? pattern cs = some (captures, rest)) :
    ∃ word, cs = word ++ rest ∧ Reads pattern captures word := by
  induction pattern generalizing cs captures rest with
  | nil =>
    obtain ⟨rfl, rfl⟩ := Prod.mk.inj (Option.some.inj h)
    exact ⟨[], rfl, .nil⟩
  | cons piece pattern ih =>
    cases piece with
    | literal text =>
      obtain ⟨behind, hbehind, h⟩ := Option.bind_eq_some_iff.1 h
      obtain ⟨word, rfl, hword⟩ := ih h
      rw [List.isPrefixOf?_eq_some_iff_append_eq] at hbehind
      exact ⟨text ++ word, by rw [← hbehind, List.append_assoc], .literal text hword⟩
    | group allowed =>
      obtain ⟨⟨part, captures', rest'⟩, hpart, heq⟩ := Option.map_eq_some_iff.1 h
      obtain ⟨rfl, rfl⟩ := Prod.mk.inj heq
      rcases stretch_eq_some hpart with hnone | ⟨more, behind, rfl, hne, hall, hmore, hnext⟩
      · exact absurd hnone (by simp)
      · obtain ⟨word, rfl, hword⟩ := ih hnext
        rw [List.reverse_nil, List.nil_append] at hmore
        subst hmore
        exact ⟨part ++ word, (List.append_assoc ..).symm, .group hne hall hword⟩

theorem Reads.isSome_match? (h : Reads pattern captures word) (rest : List Char) :
    (match? pattern (word ++ rest)).isSome = true := by
  induction h with
  | nil => rfl
  | @literal text pattern captures word _ ih =>
    have hbehind : text.isPrefixOf? (text ++ word ++ rest) = some (word ++ rest) := by
      rw [List.isPrefixOf?_eq_some_iff_append_eq, List.append_assoc]
    rw [match?, hbehind]
    exact ih
  | @group allowed part pattern captures word hne hall _ ih =>
    rw [match?, Option.isSome_map, List.append_assoc]
    exact isSome_stretch hne hall ih

/-- Every group is followed by a text that begins with a character that the group does
not allow. -/
def Delimited : Pattern → Prop
  | [] => True
  | .literal _ :: pattern => Delimited pattern
  | .group allowed :: pattern =>
    (∃ c text behind, pattern = .literal (c :: text) :: behind ∧ allowed c = false)
      ∧ Delimited pattern

/-- Two texts of allowed characters that are cut off by others are the same, if what
follows them makes them the same. -/
theorem eq_of_append_cons {allowed : Char → Bool} {c c' : Char} {part part' : List Char}
    (hall : ∀ d ∈ part, allowed d = true) (hall' : ∀ d ∈ part', allowed d = true)
    (hc : allowed c = false) (hc' : allowed c' = false)
    (h : part ++ c :: rest = part' ++ c' :: rest') : part = part' ∧ c = c' := by
  have htake {c : Char} {part rest : List Char} (hall : ∀ d ∈ part, allowed d = true)
      (hc : allowed c = false) : (part ++ c :: rest).takeWhile allowed = part := by
    rw [List.takeWhile_append_of_pos hall, List.takeWhile_cons_of_neg (by simp [hc]),
      List.append_nil]
  have hpart : part = part' := by rw [← htake hall hc, h, htake hall' hc']
  subst hpart
  exact ⟨rfl, (List.cons.inj (List.append_cancel_left h)).1⟩

/-- There is one way to match at the front of a text. -/
theorem Reads.unique (hdelimited : pattern.Delimited) (h : Reads pattern captures word)
    (h' : Reads pattern captures' word') (heq : word ++ rest = word' ++ rest') :
    captures = captures' ∧ rest = rest' := by
  induction h generalizing captures' word' with
  | nil =>
    cases h'
    exact ⟨rfl, heq⟩
  | literal text h ih =>
    cases h' with
    | literal _ h' =>
      rw [List.append_assoc, List.append_assoc, List.append_cancel_left_eq] at heq
      exact ih hdelimited h' heq
  | group hne hall h ih =>
    cases h' with
    | group hne' hall' h' =>
      obtain ⟨⟨c, text, behind, rfl, hc⟩, hdelimited⟩ := hdelimited
      -- the character that ends the one group ends the other one
      cases h with
      | literal _ h =>
        cases h' with
        | literal _ h' =>
          simp only [List.append_assoc, List.cons_append] at heq
          obtain ⟨rfl, -⟩ := eq_of_append_cons hall hall' hc hc heq
          obtain ⟨rfl, hrest⟩ := ih hdelimited (.literal _ h') (by simpa using heq)
          exact ⟨rfl, hrest⟩

/-- A pattern matches at the front of a text if the text begins with one of its shape. -/
theorem match?_eq_some_iff (hdelimited : pattern.Delimited) :
    match? pattern cs = some (captures, rest)
      ↔ ∃ word, cs = word ++ rest ∧ Reads pattern captures word := by
  refine ⟨reads_of_match?, ?_⟩
  rintro ⟨word, rfl, hword⟩
  obtain ⟨⟨captures', rest'⟩, hmatch⟩ := Option.isSome_iff_exists.1 (hword.isSome_match? rest)
  obtain ⟨word', heq, hword'⟩ := reads_of_match? hmatch
  obtain ⟨rfl, rfl⟩ := hword.unique hdelimited hword' heq
  exact hmatch

/-! ### Searches -/

/-- No match is empty, and none begins within another one. -/
structure Apart (pattern : Pattern) : Prop where
  ne_nil : ∀ captures word, Reads pattern captures word → word ≠ []
  within : ∀ captures first last rest, Reads pattern captures (first ++ last) →
    first ≠ [] → last ≠ [] → match? pattern (last ++ rest) = none

/-- The matches at all places of a text, in order. -/
def everywhere (pattern : Pattern) (cs : List Char) : List Captures :=
  cs.tails.filterMap fun text => (match? pattern text).map Prod.fst

theorem everywhere_cons (pattern : Pattern) (c : Char) (cs : List Char) :
    everywhere pattern (c :: cs)
      = ((match? pattern (c :: cs)).map Prod.fst).toList ++ everywhere pattern cs := by
  rw [everywhere, List.tails_cons, List.filterMap_cons]
  cases match? pattern (c :: cs) <;> rfl

theorem mem_everywhere : captures ∈ everywhere pattern cs
    ↔ ∃ before after rest, cs = before ++ after ∧ match? pattern after = some (captures, rest) := by
  simp only [everywhere, List.mem_filterMap, List.mem_tails, Option.map_eq_some_iff, Prod.exists]
  constructor
  · rintro ⟨after, ⟨before, rfl⟩, _, rest, hmatch, rfl⟩
    exact ⟨before, after, rest, rfl, hmatch⟩
  · rintro ⟨before, after, rest, rfl, hmatch⟩
    exact ⟨after, ⟨before, rfl⟩, captures, rest, hmatch, rfl⟩

namespace Apart

theorem everywhere_nil (h : pattern.Apart) : everywhere pattern [] = [] := by
  refine List.eq_nil_iff_forall_not_mem.2 fun captures hmem => ?_
  obtain ⟨before, after, rest, hnil, hmatch⟩ := mem_everywhere.1 hmem
  obtain ⟨word, rfl, hword⟩ := reads_of_match? hmatch
  exact h.ne_nil captures word hword (by simp_all)

/-- There are no matches in the rest of a match. -/
theorem everywhere_append {first last : List Char} (h : pattern.Apart)
    (hword : Reads pattern captures (first ++ last)) (hfirst : first ≠ []) (rest : List Char) :
    everywhere pattern (last ++ rest) = everywhere pattern rest := by
  induction last generalizing first with
  | nil => rfl
  | cons c last ih =>
    have hnone := h.within captures first (c :: last) rest hword hfirst (by simp)
    rw [List.cons_append] at hnone ⊢
    rw [everywhere_cons, hnone]
    have hword' : Reads pattern captures (first ++ [c] ++ last) := by simpa using hword
    exact ih hword' (by simp)

theorem findFrom_eq (h : pattern.Apart) (done : List Captures) (cs : List Char) :
    findFrom pattern done cs = done.reverse ++ everywhere pattern cs := by
  fun_induction findFrom pattern done cs with
  | case1 done => rw [h.everywhere_nil, List.append_nil]
  | case2 done c cs hnone ih => rw [ih, everywhere_cons, hnone]; rfl
  | case3 done c cs captures rest hmatch hle ih =>
    obtain ⟨word, heq, hword⟩ := reads_of_match? hmatch
    obtain ⟨d, last, rfl⟩ := List.exists_cons_of_ne_nil (h.ne_nil _ _ hword)
    rw [List.cons_append] at heq
    obtain ⟨rfl, rfl⟩ := List.cons.inj heq
    have hword' : Reads pattern captures ([c] ++ last) := hword
    have hrest := h.everywhere_append hword' (by simp) rest
    rw [ih, everywhere_cons, hmatch, hrest]
    simp
  | case4 done c cs captures rest hmatch hlonger ih =>
    -- a match takes a character
    obtain ⟨word, heq, hword⟩ := reads_of_match? hmatch
    have hlength := congrArg List.length heq
    have hpos := List.length_pos_iff.2 (h.ne_nil _ _ hword)
    rw [List.length_cons, List.length_append] at hlength
    omega

/-- **A search misses nothing** if no match begins within another one. -/
theorem findAll_eq (h : pattern.Apart) (cs : List Char) :
    findAll pattern cs = everywhere pattern cs :=
  h.findFrom_eq [] cs

end Apart

end ElementLens.Text.Pattern
