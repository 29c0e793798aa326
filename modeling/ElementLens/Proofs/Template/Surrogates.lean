/-
Which surrogate pairs are joined.

The value of template text is the text that the code units of its pieces write. Reading it
piece by piece, a pair of surrogates is joined only if its second half is written with four
digits and directly behind the first one. Any other pair is missed (`Template.Missed`):
one whose second half is written in braces, or behind a continuation.

* **`missedAt_iff`** — where a pair is missed, in terms of code units;
* **`valueOf_eq_decodeUnits_iff`** — the value of a row of pieces is the text that its code
  units write if and only if no pair is missed;
* **`toList_eq_decodeUnits_iff`** — the same for template text.
-/
import ElementLens.Proofs.Template.Grammar

namespace ElementLens.Template

open Text (number)

variable {p q : Piece} {ps : List Piece}

/-- The code units that a row of pieces stands for. -/
def unitsOf (ps : List Piece) : List Nat :=
  ps.flatMap Piece.units

/-- A piece is the first half of a surrogate pair that is not joined, with the second half
among the pieces behind it. -/
def MissedAt (p : Piece) (ps : List Piece) : Prop :=
  ∃ (between : List Piece) (q : Piece) (after : List Piece) (high low : Nat),
    ps = between ++ q :: after
      ∧ p.units = [high] ∧ isHighSurrogate high = true
      ∧ (∀ r ∈ between, r.units = [])
      ∧ q.units = [low] ∧ isLowSurrogate low = true
      ∧ ¬ (between = [] ∧ ∃ digits, q = .unicode digits)

/-- A row of pieces holds a surrogate pair that is not joined. -/
def Missed (ps : List Piece) : Prop :=
  ∃ before p after, ps = before ++ p :: after ∧ MissedAt p after

theorem unitsOf_cons (p : Piece) (ps : List Piece) :
    unitsOf (p :: ps) = p.units ++ unitsOf ps :=
  List.flatMap_cons

theorem not_missed_nil : ¬ Missed [] := by
  rintro ⟨before, p, after, h, -⟩
  exact absurd h (by simp)

theorem missed_cons : Missed (p :: ps) ↔ MissedAt p ps ∨ Missed ps := by
  constructor
  · rintro ⟨before, q, after, h, hmissed⟩
    cases before with
    | nil =>
      obtain ⟨rfl, rfl⟩ := List.cons.inj h
      exact .inl hmissed
    | cons r before =>
      obtain ⟨-, rfl⟩ := List.cons.inj h
      exact .inr ⟨before, q, after, rfl, hmissed⟩
  · rintro (hmissed | ⟨before, q, after, rfl, hmissed⟩)
    · exact ⟨[], p, ps, rfl, hmissed⟩
    · exact ⟨p :: before, q, after, rfl, hmissed⟩

/-! ### Halves of a pair -/

/-- A piece with one unit that is a surrogate stands for that surrogate. -/
theorem Piece.code?_of_units {unit : Nat} (hp : p.Valid) (h : p.units = [unit]) :
    p.code? = some unit := by
  cases hcode : p.code? with
  | none => exact absurd h (by simp [Piece.units, hcode])
  | some code =>
    rw [Piece.units_eq hcode] at h
    by_cases hlt : code < 0x10000
    · rw [encodeUnits_of_lt hlt] at h
      rw [List.singleton_inj.1 h]
    · obtain ⟨high, low, hunits, -⟩ := encodeUnits_of_le (by omega) (Piece.code?_le hp hcode)
      exact absurd (hunits.symm.trans h) (by simp)

theorem Piece.units_of_high? {high : Nat} (h : p.high? = some high) : p.units = [high] := by
  obtain ⟨hcode, hhigh⟩ := Piece.high?_eq_some_iff.1 h
  rw [isHighSurrogate_eq_true_iff] at hhigh
  rw [Piece.units_eq hcode, encodeUnits_of_lt (by omega)]

theorem Piece.units_of_low? {low : Nat} (h : p.low? = some low) : p.units = [low] := by
  obtain ⟨digits, rfl, rfl, hlow⟩ := Piece.low?_eq_some_iff.1 h
  rw [isLowSurrogate_eq_true_iff] at hlow
  rw [Piece.units_eq rfl, encodeUnits_of_lt (by omega)]

theorem Piece.units_of_head? {unit : Nat} {units : List Nat} (hp : p.Valid)
    (h : p.units = unit :: units) (hlow : isLowSurrogate unit = true) : p.units = [unit] := by
  cases hcode : p.code? with
  | none => exact absurd h (by simp [Piece.units, hcode])
  | some code =>
    rw [Piece.units_eq hcode] at h ⊢
    obtain ⟨unit', hhead, hiff⟩ := head?_encodeUnits (Piece.code?_le hp hcode) []
    rw [List.append_nil, h, List.head?_cons, Option.some_inj] at hhead
    have hcodelow := isLowSurrogate_eq_true_iff.1 (hiff.1 (hhead ▸ hlow))
    rw [encodeUnits_of_lt (by omega)] at h ⊢
    rw [(List.cons.inj h).1]

/-- The first unit of a row is the first one of a piece behind pieces that stand for
nothing. -/
theorem exists_of_head?_unitsOf {unit : Nat} (h : (unitsOf ps).head? = some unit) :
    ∃ (between : List Piece) (q : Piece) (after : List Piece) (units : List Nat),
      ps = between ++ q :: after ∧ (∀ r ∈ between, r.units = []) ∧ q.units = unit :: units := by
  induction ps with
  | nil => exact absurd h (by simp [unitsOf])
  | cons p ps ih =>
    rw [unitsOf_cons] at h
    cases hunits : p.units with
    | nil =>
      rw [hunits, List.nil_append] at h
      obtain ⟨between, q, after, units, rfl, hbetween, hq⟩ := ih h
      refine ⟨p :: between, q, after, units, rfl, ?_, hq⟩
      intro r hr
      rcases List.mem_cons.1 hr with rfl | hr
      · exact hunits
      · exact hbetween r hr
    | cons unit' units =>
      rw [hunits, List.cons_append, List.head?_cons, Option.some_inj] at h
      exact ⟨[], p, ps, units, rfl, by simp, h ▸ hunits⟩

/-- A pair is missed where the first half is followed, in terms of code units, by a second
half that does not stand directly behind it with four digits. -/
theorem missedAt_iff (hp : p.Valid) (hps : ∀ q ∈ ps, q.Valid) :
    MissedAt p ps ↔ p.high?.isSome = true
      ∧ (∃ low ∈ (unitsOf ps).head?, isLowSurrogate low = true)
      ∧ ps.head?.bind Piece.low? = none := by
  constructor
  · rintro ⟨between, q, after, high, low, rfl, hhigh, hhalf, hbetween, hlow, hhalf', hnot⟩
    have hnothing : unitsOf between = [] := List.flatMap_eq_nil_iff.2 hbetween
    refine ⟨?_, ⟨low, ?_, hhalf'⟩, ?_⟩
    · rw [Piece.high?_eq_some_iff.2 ⟨Piece.code?_of_units hp hhigh, hhalf⟩]
      rfl
    · rw [unitsOf, List.flatMap_append, ← unitsOf, hnothing, List.nil_append, List.flatMap_cons,
        hlow]
      rfl
    · rw [Option.eq_none_iff_forall_ne_some]
      intro low' hdirect
      cases between with
      | nil =>
        obtain ⟨digits, rfl, -, -⟩ := Piece.low?_eq_some_iff.1 hdirect
        exact hnot ⟨rfl, digits, rfl⟩
      | cons r between =>
        have hr := hbetween r List.mem_cons_self
        rw [Piece.units_of_low? hdirect] at hr
        exact absurd hr (by simp)
  · rintro ⟨hhigh, ⟨low, hhead, hhalf⟩, hnot⟩
    obtain ⟨high, hhigh⟩ := Option.isSome_iff_exists.1 hhigh
    obtain ⟨between, q, after, units, rfl, hbetween, hq⟩ := exists_of_head?_unitsOf hhead
    have hvalid : q.Valid := hps q (by simp)
    refine ⟨between, q, after, high, low, rfl, Piece.units_of_high? hhigh,
      (Piece.high?_eq_some_iff.1 hhigh).2, hbetween, Piece.units_of_head? hvalid hq hhalf, hhalf,
      ?_⟩
    rintro ⟨rfl, digits, rfl⟩
    have hcode := Piece.code?_of_units hvalid (Piece.units_of_head? hvalid hq hhalf)
    have hlow : (Piece.unicode digits).low? = some low :=
      Piece.low?_eq_some_iff.2 ⟨digits, rfl, Option.some.inj hcode, hhalf⟩
    exact absurd (hnot.symm.trans hlow) (by simp)

/-! ### Values and code units -/

/-- A piece whose last unit does not begin a pair with what follows is read by itself. -/
theorem decodeUnits_unitsOf_cons (hp : p.Valid)
    (halone : ¬ (p.high?.isSome = true ∧ ∃ low ∈ (unitsOf ps).head?, isLowSurrogate low = true)) :
    decodeUnits (unitsOf (p :: ps)) = decodeUnits p.units ++ decodeUnits (unitsOf ps) := by
  rw [unitsOf_cons]
  cases hcode : p.code? with
  | none =>
    have hunits : p.units = [] := by rw [Piece.units, hcode, Option.elim_none]
    rw [hunits, List.nil_append, decodeUnits, List.nil_append]
  | some code =>
    rw [Piece.decodeUnits_units hp hcode, Piece.units_eq hcode, List.singleton_append]
    by_cases hhigh : isHighSurrogate code = true
    · rw [ofCodePoint_of_isHighSurrogate hhigh]
      refine decodeUnits_high_append hhigh fun low hlow => ?_
      rw [← Bool.not_eq_true]
      intro hhalf
      have hsome : p.high? = some code := Piece.high?_eq_some_iff.2 ⟨hcode, hhigh⟩
      exact halone ⟨by rw [hsome]; rfl, low, hlow, hhalf⟩
    · exact decodeUnits_encodeUnits_append (Piece.code?_le hp hcode) (eq_false_of_ne_true hhigh) _

/-- Where a pair is missed the value has a replacement character, and the code units write
another one. -/
theorem valueOf_ne_of_missedAt (hp : p.Valid) (hps : ∀ q ∈ ps, q.Valid) (h : MissedAt p ps) :
    valueOf (p :: ps) ≠ decodeUnits (unitsOf (p :: ps)) := by
  obtain ⟨hhigh, ⟨low, hhead, hlow⟩, hnot⟩ := (missedAt_iff hp hps).1 h
  obtain ⟨high, hhigh⟩ := Option.isSome_iff_exists.1 hhigh
  obtain ⟨hcode, hhalf⟩ := Piece.high?_eq_some_iff.1 hhigh
  obtain ⟨units, hunits⟩ := List.head?_eq_some_iff.1 hhead
  have hvalue : valueOf (p :: ps) = decodeUnits p.units ++ valueOf ps :=
    valueOf_alone fun _ _ _ hdirect => absurd (hnot.symm.trans hdirect) (by simp)
  rw [hvalue, Piece.decodeUnits_units hp hcode, ofCodePoint_of_isHighSurrogate hhalf, unitsOf_cons,
    Piece.units_of_high? hhigh, hunits, List.singleton_append, List.singleton_append,
    decodeUnits_pair hhalf hlow]
  intro heq
  exact ofCodePoint_ofSurrogates_ne hhalf hlow (List.cons.inj heq).1.symm

/-- A piece that is not joined with the next one is read right unless its pair is missed. -/
theorem valueOf_cons_eq_iff (hp : p.Valid) (hps : ∀ q ∈ ps, q.Valid)
    (halone : ∀ high low, p.high? = some high → ps.head?.bind Piece.low? = some low → False) :
    valueOf (p :: ps) = decodeUnits (unitsOf (p :: ps))
      ↔ ¬ MissedAt p ps ∧ valueOf ps = decodeUnits (unitsOf ps) := by
  by_cases hmissed : MissedAt p ps
  · simp only [valueOf_ne_of_missedAt hp hps hmissed, hmissed, not_true_eq_false, false_and]
  · have hapart : ¬ (p.high?.isSome = true
        ∧ ∃ low ∈ (unitsOf ps).head?, isLowSurrogate low = true) := by
      rintro ⟨hhigh, hlow⟩
      refine hmissed ((missedAt_iff hp hps).2 ⟨hhigh, hlow, ?_⟩)
      obtain ⟨high, hhigh⟩ := Option.isSome_iff_exists.1 hhigh
      exact Option.eq_none_iff_forall_ne_some.2 fun low => halone high low hhigh
    rw [valueOf_alone halone, decodeUnits_unitsOf_cons hp hapart, List.append_cancel_left_eq,
      and_iff_right hmissed]

/-- Pairs that are joined are not missed. -/
theorem missed_pair {low : Nat} (hp : p.Valid) (hps : ∀ r ∈ q :: ps, r.Valid)
    (hlow : q.low? = some low) :
    Missed (p :: q :: ps) ↔ Missed ps := by
  have hq : q.Valid := hps q List.mem_cons_self
  have hps' : ∀ r ∈ ps, r.Valid := fun r hr => hps r (List.mem_cons_of_mem _ hr)
  have hfirst : ¬ MissedAt p (q :: ps) := by
    rw [missedAt_iff hp hps, List.head?_cons, Option.bind_some, hlow]
    simp
  have hsecond : ¬ MissedAt q ps := by
    rw [missedAt_iff hq hps', Piece.high?_of_low? hlow]
    simp
  rw [missed_cons, missed_cons, or_iff_right hfirst, or_iff_right hsecond]

/-- The value of a row of pieces is the text that its code units write if and only if no
pair of surrogates is missed. -/
theorem valueOf_eq_decodeUnits_iff (hps : ∀ p ∈ ps, p.Valid) :
    valueOf ps = decodeUnits (unitsOf ps) ↔ ¬ Missed ps := by
  induction ps using valueOf.induct with
  | case1 => exact ⟨fun _ => not_missed_nil, fun _ => rfl⟩
  | case2 p =>
    have hp : p.Valid := hps p List.mem_cons_self
    rw [valueOf_cons_eq_iff hp (by simp) (by simp), missed_cons, not_or]
    exact and_congr_right' ⟨fun _ => not_missed_nil, fun _ => rfl⟩
  | case3 p q ps high low hlow hhigh ih =>
    obtain ⟨hp, hps⟩ := List.forall_mem_cons.1 hps
    obtain ⟨-, hps'⟩ := List.forall_mem_cons.1 hps
    obtain ⟨-, hhalf⟩ := Piece.high?_eq_some_iff.1 hhigh
    obtain ⟨-, -, -, hhalf'⟩ := Piece.low?_eq_some_iff.1 hlow
    rw [missed_pair hp hps hlow, ← ih hps', valueOf_pair hhigh hlow, unitsOf_cons,
      unitsOf_cons, Piece.units_of_high? hhigh, Piece.units_of_low? hlow, List.singleton_append,
      List.singleton_append, decodeUnits_pair hhalf hhalf', List.cons_inj_right]
  | case4 p q ps halone ih =>
    obtain ⟨hp, hps⟩ := List.forall_mem_cons.1 hps
    have hmissed : Missed (p :: q :: ps) ↔ MissedAt p (q :: ps) ∨ Missed (q :: ps) := missed_cons
    rw [valueOf_cons_eq_iff hp hps halone, ih hps, hmissed, not_or]

theorem Spells.valid {cs : List Char} (h : Spells ps cs) : ∀ p ∈ ps, p.Valid := by
  induction h with
  | nil => simp
  | cons hp _ _ ih => exact List.forall_mem_cons.2 ⟨hp, ih⟩

/-- Template text that has a value is spelled by a row of pieces, and by no other one. Its
value is the text that the code units of the pieces write if and only if no pair of
surrogates is missed. -/
theorem toList_eq_decodeUnits_iff {raw s : String} (h : cook raw = some s) :
    ∃ ps, Spells ps raw.toList ∧ (∀ qs, Spells qs raw.toList → qs = ps)
      ∧ s.toList = valueOf ps ∧ (s.toList = decodeUnits (unitsOf ps) ↔ ¬ Missed ps) := by
  obtain ⟨cs, hcs, rfl⟩ := Option.map_eq_some_iff.1 h
  obtain ⟨ps, hps⟩ := exists_spells (Option.isSome_iff_exists.2 ⟨cs, hcs⟩)
  rw [cookFrom_of_spells hps, List.reverse_nil, List.nil_append, Option.some_inj] at hcs
  refine ⟨ps, hps, fun qs hqs => hqs.eq hps, ?_, ?_⟩
  · rw [String.toList_ofList, hcs]
  · rw [String.toList_ofList, ← hcs, valueOf_eq_decodeUnits_iff hps.valid]

/-- A pair of which both halves have four digits is joined. -/
theorem toList_eq_decodeUnits_iff_four_digits :
    cook "\\uD83D\\uDE00" = some "😀" ∧ ∃ ps, Spells ps "\\uD83D\\uDE00".toList
      ∧ (∀ qs, Spells qs "\\uD83D\\uDE00".toList → qs = ps)
      ∧ "😀".toList = valueOf ps ∧ ("😀".toList = decodeUnits (unitsOf ps) ↔ ¬ Missed ps) := by
  have hspells : Spells [.unicode ['D', '8', '3', 'D'], .unicode ['D', 'E', '0', '0']]
      "\\uD83D\\uDE00".toList :=
    .cons (by decide) trivial (.cons (by decide) trivial .nil)
  have hcook : cook "\\uD83D\\uDE00" = some "😀" := by
    rw [cook, cookFrom_of_spells hspells]
    decide
  exact ⟨hcook, toList_eq_decodeUnits_iff hcook⟩

/-- A pair whose second half is in braces is missed: the value has two replacement
characters where the code units write one character. -/
theorem cook_second_half_in_braces :
    cook "\\uD83D\\u\x7bDE00\x7d" = some "\uFFFD\uFFFD"
      ∧ Spells [.unicode ['D', '8', '3', 'D'], .braced ['D', 'E', '0', '0']]
          "\\uD83D\\u\x7bDE00\x7d".toList
      ∧ decodeUnits (unitsOf [.unicode ['D', '8', '3', 'D'], .braced ['D', 'E', '0', '0']])
          = ['😀'] := by
  have hspells : Spells [.unicode ['D', '8', '3', 'D'], .braced ['D', 'E', '0', '0']]
      "\\uD83D\\u\x7bDE00\x7d".toList :=
    .cons (by decide) trivial (.cons (by decide) trivial .nil)
  refine ⟨?_, hspells, by decide⟩
  rw [cook, cookFrom_of_spells hspells]
  decide

end ElementLens.Template
