/-
Which template text has a value.

Text is well escaped (`Template.WellEscaped`) if every backslash in it begins one of the
escapes of the language. A text has a value exactly if it is well escaped:

* **`isSome_cookFrom_write`** — a piece at the front of a text has no say in whether the
  rest of the text has a value, even if it is read together with the piece behind it;
* **`cook_eq_none_iff`** — a text has no value if and only if it is not well escaped.
-/
import ElementLens.Proofs.Template.Grammar

namespace ElementLens.Template

open Text (isHex number)

variable {cs rest : List Char}

/-- Text in which every backslash begins an escape. -/
inductive WellEscaped : List Char → Prop
  | nil : WellEscaped []
  | plain {c : Char} {rest : List Char} (hc : c ≠ '\\') (h : WellEscaped rest) :
      WellEscaped (c :: rest)
  /-- A backslash before a line end. -/
  | continuation {text rest : List Char} (ht : text ∈ lineEnds) (h : WellEscaped rest) :
      WellEscaped ('\\' :: (text ++ rest))
  /-- A backslash before any character but a digit, an x and a u. -/
  | single {c : Char} {rest : List Char} (hc : c.isDigit = false ∧ c ≠ 'x' ∧ c ≠ 'u')
      (h : WellEscaped rest) : WellEscaped ('\\' :: c :: rest)
  /-- A backslash before a zero that no digit follows. -/
  | null {rest : List Char} (hnext : ∀ c ∈ rest.head?, c.isDigit = false)
      (h : WellEscaped rest) : WellEscaped ('\\' :: '0' :: rest)
  /-- A backslash before an x and two digits. -/
  | hex {digits rest : List Char} (hlen : digits.length = 2)
      (hall : ∀ c ∈ digits, isHex c = true) (h : WellEscaped rest) :
      WellEscaped ('\\' :: 'x' :: (digits ++ rest))
  /-- A backslash before a u and four digits. -/
  | unicode {digits rest : List Char} (hlen : digits.length = 4)
      (hall : ∀ c ∈ digits, isHex c = true) (h : WellEscaped rest) :
      WellEscaped ('\\' :: 'u' :: (digits ++ rest))
  /-- A backslash before a u and a code point in braces, of any number of digits. -/
  | braced {digits rest : List Char} (hne : digits ≠ []) (hall : ∀ c ∈ digits, isHex c = true)
      (hle : number digits ≤ 0x10FFFF) (h : WellEscaped rest) :
      WellEscaped ('\\' :: 'u' :: '{' :: (digits ++ '}' :: rest))

/-! ### What is read before has no say -/

/-- Whether a text has a value does not depend on what was read before. -/
theorem isSome_cookFrom (done done' cs : List Char) :
    (cookFrom done cs).isSome = (cookFrom done' cs).isSome := by
  rw [Bool.eq_iff_iff, isSome_cookFrom_iff, isSome_cookFrom_iff]

theorem isSome_cookFrom_write {p : Piece} (hp : p.Valid) (hends : p.EndsBefore rest)
    (done : List Char) :
    (cookFrom done (p.write ++ rest)).isSome = (cookFrom done rest).isSome := by
  by_cases hpair : ∃ high low, p.high? = some high ∧ lowEscape? rest = some low
  · -- the piece behind is read along, and it is valid too
    obtain ⟨high, low, hhigh, hlow⟩ := hpair
    obtain ⟨q, hq, hqlow, hrest⟩ := exists_piece_of_lowEscape? hlow
    have hqhigh : q.high? = none := Piece.high?_of_low? hqlow
    have hnext : cookFrom done rest
        = cookFrom ((decodeUnits q.units).reverse ++ done) (rest.drop 6) := by
      rw [hrest]
      rw [cookFrom_write hq (Piece.endsBefore_of_low? hqlow _)
        (fun _ _ h => absurd h (by rw [hqhigh]; simp)), ← hrest]
    rw [cookFrom_write_pair hp hhigh hlow, hnext]
    exact isSome_cookFrom _ _ _
  · rw [cookFrom_write hp hends fun high low hhigh hlow => hpair ⟨high, low, hhigh, hlow⟩]
    exact isSome_cookFrom _ _ _

/-- A carriage return may be followed by a line feed, which it takes along. -/
theorem isSome_cookFrom_cr {done : List Char} (h : (cookFrom done cs).isSome = true) :
    (cookFrom done ('\r' :: cs)).isSome = true := by
  by_cases hlf : cs.head? = some '\n'
  · obtain ⟨cs, rfl⟩ := List.head?_eq_some_iff.1 hlf
    rw [cookFrom_plain (by decide)] at h
    have hread := @cookFrom_lineEnd cs ['\r', '\n'] (.inr rfl) (fun h => absurd h (by decide)) done
    exact hread ▸ h
  · have hp : (Piece.lineEnd ['\r']).Valid := .inl rfl
    exact (isSome_cookFrom_write hp (fun _ => hlf) done).trans h

/-- The same holds behind a backslash. -/
theorem isSome_cookFrom_continuation {text done : List Char} (ht : text ∈ lineEnds)
    (h : (cookFrom done cs).isSome = true) :
    (cookFrom done ('\\' :: (text ++ cs))).isSome = true := by
  by_cases hcr : text = ['\r'] ∧ cs.head? = some '\n'
  · obtain ⟨rfl, hlf⟩ := hcr
    obtain ⟨cs, rfl⟩ := List.head?_eq_some_iff.1 hlf
    rw [cookFrom_plain (by decide), isSome_cookFrom _ done] at h
    have hends : (Piece.continuation ['\r', '\n']).EndsBefore cs := fun h => absurd h (by decide)
    exact (isSome_cookFrom_write (by decide) hends done).trans h
  · have hp : (Piece.continuation text).Valid := ht
    exact (isSome_cookFrom_write hp (fun h hlf => hcr ⟨h, hlf⟩) done).trans h

/-! ### Well escaped text -/

theorem isSome_cookFrom_of_wellEscaped (h : WellEscaped cs) (done : List Char) :
    (cookFrom done cs).isSome = true := by
  induction h generalizing done with
  | nil => rw [cookFrom, Option.isSome_some]
  | @plain c rest hc h ih =>
    by_cases hcr : c = '\r'
    · exact hcr ▸ isSome_cookFrom_cr (ih done)
    · rw [cookFrom_plain ⟨hc, hcr⟩]
      exact ih _
  | continuation ht h ih => exact isSome_cookFrom_continuation ht (ih done)
  | @single c rest hc h ih =>
    by_cases hend : [c] ∈ lineEnds
    · exact isSome_cookFrom_continuation hend (ih done)
    · have hp : (Piece.single c).Valid := ⟨hc.1, hc.2.1, hc.2.2, hend⟩
      exact (isSome_cookFrom_write hp trivial done).trans (ih done)
  | null hnext h ih => exact (isSome_cookFrom_write (p := .null) trivial hnext done).trans (ih done)
  | @hex digits rest hlen hall h ih =>
    have hp : (Piece.hex digits).Valid := ⟨hlen, hall⟩
    exact (isSome_cookFrom_write hp trivial done).trans (ih done)
  | @unicode digits rest hlen hall h ih =>
    have hp : (Piece.unicode digits).Valid := ⟨hlen, hall⟩
    exact (isSome_cookFrom_write hp trivial done).trans (ih done)
  | @braced digits rest hne hall hle h ih =>
    have hp : (Piece.braced digits).Valid := ⟨hne, hall, hle⟩
    have hends : (Piece.braced digits).EndsBefore rest := trivial
    have hwrite := isSome_cookFrom_write hp hends done
    simp only [Piece.write, List.cons_append, List.append_assoc, List.nil_append] at hwrite
    exact hwrite.trans (ih done)

theorem WellEscaped.write {p : Piece} (hp : p.Valid) (hends : p.EndsBefore rest)
    (h : WellEscaped rest) : WellEscaped (p.write ++ rest) := by
  cases p with
  | plain c => exact .plain hp.1 h
  | lineEnd text =>
    rcases hp with rfl | rfl
    · exact .plain (by decide) h
    · exact .plain (by decide) (.plain (by decide) h)
  | continuation text => exact .continuation hp h
  | single c => exact .single ⟨hp.1, hp.2.1, hp.2.2.1⟩ h
  | null => exact .null hends h
  | hex digits => exact .hex hp.1 hp.2 h
  | unicode digits => exact .unicode hp.1 hp.2 h
  | braced digits =>
    simpa [Piece.write] using WellEscaped.braced hp.1 hp.2.1 hp.2.2 h

theorem wellEscaped_of_spells {ps : List Piece} (h : Spells ps cs) : WellEscaped cs := by
  induction h with
  | nil => exact .nil
  | cons hp hends _ ih => exact ih.write hp hends

theorem isSome_cookFrom_iff_wellEscaped (done cs : List Char) :
    (cookFrom done cs).isSome = true ↔ WellEscaped cs := by
  constructor
  · intro h
    obtain ⟨ps, hps⟩ := exists_spells h
    exact wellEscaped_of_spells hps
  · exact fun h => isSome_cookFrom_of_wellEscaped h done

/-- A text has no value if and only if it is not well escaped. That an escape may look at
the one behind it to join a surrogate pair makes no difference: behind an escape that
begins with a u, at whatever place in a text, all depends on the text that follows. -/
theorem cook_eq_none_iff (raw : String) :
    (cook raw = none ↔ ¬ WellEscaped raw.toList)
      ∧ ∀ (done cs : List Char) (code n : Nat), unicodeCode? cs = some (code, n) →
        (cookFrom done ('\\' :: 'u' :: cs)).isSome = (cookFrom done (cs.drop n)).isSome := by
  constructor
  · rw [cook, Option.map_eq_none_iff, ← isSome_cookFrom_iff_wellEscaped [], Bool.not_eq_true,
      Option.isSome_eq_false_iff, Option.isNone_iff_eq_none]
  · intro done cs code n hcode
    obtain ⟨p, hp, hends, hcs⟩ := exists_piece_of_unicodeCode? hcode
    rw [hcs]
    exact isSome_cookFrom_write hp hends done

/-- The rule for the two halves of a pair, the second one of which is not valid. -/
theorem cook_eq_none_iff_broken_half :
    unicodeCode? ("D83D\\uDEZZ".toList) = some (0xD83D, 4)
      ∧ (cookFrom [] ("\\uD83D\\uDEZZ".toList)).isSome
        = (cookFrom [] ("\\uDEZZ".toList)).isSome :=
  ⟨by decide, (cook_eq_none_iff "\\uD83D\\uDEZZ").2 [] _ 0xD83D 4 (by decide)⟩

end ElementLens.Template
