/-
Reading template text piece by piece.

* **`cookFrom_write`**, **`cookFrom_write_pair`** — what reading a piece at the front of a
  text does;
* **`cookFrom_of_spells`** — a text that is spelled by pieces has a value, the one that is
  read off the pieces;
* **`exists_spells`** — a text that has a value is spelled by pieces.
-/
import ElementLens.Proofs.Template.Pieces

namespace ElementLens.Template

open Text (isHex number)

variable {cs rest done digits : List Char}

/-! ### Reading a piece -/

theorem cookFrom_plain {c : Char} (hc : c ≠ '\\' ∧ c ≠ '\r') (done cs : List Char) :
    cookFrom done (c :: cs) = cookFrom (c :: done) cs := by
  rw [cookFrom]
  · rintro _ rfl
    exact absurd rfl hc.2
  · rintro rfl
    exact absurd rfl hc.2
  · rintro rfl
    exact absurd rfl hc.1

theorem cookFrom_lineEnd {text : List Char} (ht : text = ['\r'] ∨ text = ['\r', '\n'])
    (hends : text = ['\r'] → cs.head? ≠ some '\n') (done : List Char) :
    cookFrom done (text ++ cs) = cookFrom ('\n' :: done) cs := by
  rcases ht with rfl | rfl
  · rw [List.singleton_append, cookFrom]
    rintro _ rfl
    exact hends rfl rfl
  · rw [List.cons_append, List.singleton_append, cookFrom]

/-- An escape is read as what it stands for. -/
theorem cookFrom_escape {body out : List Char} (h : escape? (body ++ cs) = some (out, body.length))
    (done : List Char) :
    cookFrom done ('\\' :: (body ++ cs)) = cookFrom (out.reverse ++ done) cs := by
  rw [cookFrom, h]
  simp only [List.drop_left]

theorem escape?_lineEnd {text : List Char} (ht : text ∈ lineEnds)
    (hends : text = ['\r'] → cs.head? ≠ some '\n') :
    escape? (text ++ cs) = some ([], text.length) := by
  simp only [lineEnds, List.mem_cons, List.not_mem_nil, or_false] at ht
  rcases ht with rfl | rfl | rfl | rfl | rfl
  · rfl
  · rw [List.singleton_append, escape?]
    · rfl
    · rintro _ rfl
      exact hends rfl rfl
  · rfl
  · rfl
  · rfl

theorem escape?_single {c : Char}
    (hc : c.isDigit = false ∧ c ≠ 'x' ∧ c ≠ 'u' ∧ [c] ∉ lineEnds) (cs : List Char) :
    escape? (c :: cs) = some ([Piece.escaped c], 1) := by
  obtain ⟨hdigit, hx, hu, hend⟩ := hc
  unfold escape? Piece.escaped
  split <;> simp_all [lineEnds]

theorem escape?_null (hends : ∀ c ∈ cs.head?, c.isDigit = false) :
    escape? ('0' :: cs) = some (['\x00'], 1) := by
  rw [escape?, if_neg]
  cases hcs : cs.head? with
  | none => simp
  | some c => simp [hends c hcs]

theorem escape?_hex (hlen : digits.length = 2) (h : ∀ c ∈ digits, isHex c = true)
    (cs : List Char) :
    escape? ('x' :: (digits ++ cs)) = some ([ofCodePoint (number digits)], 3) := by
  have hnumber := Text.hexNumber_append h 0 cs
  rw [hlen] at hnumber
  rw [escape?, hnumber]
  rfl

section Unicode

variable {code n : Nat}

/-- The first half of a pair is joined with the second one if that follows directly. -/
theorem cookFrom_unicode_pair {low : Nat} (hcode : unicodeCode? cs = some (code, n))
    (hhigh : isHighSurrogate code = true) (hlow : lowEscape? (cs.drop n) = some low)
    (done : List Char) :
    cookFrom done ('\\' :: 'u' :: cs)
      = cookFrom (ofCodePoint (ofSurrogates code low) :: done) ((cs.drop n).drop 6) := by
  have hread : unicodeEscape? cs = some (ofCodePoint (ofSurrogates code low), n + 6) := by
    simp only [unicodeEscape?, hcode, hhigh, if_true, hlow]
  rw [cookFrom, escape?, hread]
  simp only [Option.map_some, List.reverse_singleton, List.singleton_append,
    List.drop_succ_cons, List.drop_drop]

/-- Every other code is read alone. -/
theorem cookFrom_unicode_alone (hcode : unicodeCode? cs = some (code, n))
    (halone : isHighSurrogate code = true → lowEscape? (cs.drop n) = none)
    (done : List Char) :
    cookFrom done ('\\' :: 'u' :: cs) = cookFrom (ofCodePoint code :: done) (cs.drop n) := by
  have hread : unicodeEscape? cs = some (ofCodePoint code, n) := by
    by_cases hhigh : isHighSurrogate code = true
    · simp only [unicodeEscape?, hcode, hhigh, if_true, halone hhigh,
        ofCodePoint_of_isHighSurrogate hhigh]
    · simp [unicodeEscape?, hcode, hhigh]
  rw [cookFrom, escape?, hread]
  simp only [Option.map_some, List.reverse_singleton, List.singleton_append,
    List.drop_succ_cons]

end Unicode

section Write

variable {p : Piece}

theorem cookFrom_write_pair {high low : Nat} (hp : p.Valid) (hhigh : p.high? = some high)
    (hlow : lowEscape? rest = some low) (done : List Char) :
    cookFrom done (p.write ++ rest)
      = cookFrom (ofCodePoint (ofSurrogates high low) :: done) (rest.drop 6) := by
  obtain ⟨cs, n, hwrite, hcode, rfl⟩ := Piece.exists_unicodeCode? hp hhigh rest
  rw [hwrite]
  exact cookFrom_unicode_pair hcode (Piece.high?_eq_some_iff.1 hhigh).2 hlow done

theorem cookFrom_write (hp : p.Valid) (hends : p.EndsBefore rest)
    (halone : ∀ high low, p.high? = some high → lowEscape? rest = some low → False)
    (done : List Char) :
    cookFrom done (p.write ++ rest) = cookFrom ((decodeUnits p.units).reverse ++ done) rest := by
  have hlow : ∀ code, p.code? = some code → isHighSurrogate code = true →
      lowEscape? rest = none := fun code hcode hhigh =>
    Option.eq_none_iff_forall_ne_some.2 fun low =>
      halone code low (Piece.high?_eq_some_iff.2 ⟨hcode, hhigh⟩)
  cases p with
  | plain c =>
    rw [Piece.decodeUnits_units hp rfl, ofCodePoint_toNat]
    exact cookFrom_plain hp done rest
  | lineEnd text =>
    rw [Piece.decodeUnits_units hp rfl, ofCodePoint_toNat]
    exact cookFrom_lineEnd hp hends done
  | continuation text => exact cookFrom_escape (escape?_lineEnd hp hends) done
  | single c =>
    rw [Piece.decodeUnits_units hp rfl, ofCodePoint_toNat]
    have hread : escape? ([c] ++ rest) = some ([Piece.escaped c], [c].length) :=
      escape?_single hp rest
    exact cookFrom_escape hread done
  | null =>
    rw [Piece.decodeUnits_units hp rfl]
    exact cookFrom_escape (escape?_null hends) done
  | hex digits =>
    rw [Piece.decodeUnits_units hp rfl]
    refine cookFrom_escape ?_ done
    rw [List.length_cons, hp.1]
    exact escape?_hex hp.1 hp.2 rest
  | unicode digits =>
    rw [Piece.decodeUnits_units hp rfl]
    have hdrop : (digits ++ rest).drop 4 = rest := by rw [← hp.1, List.drop_left]
    have hread := cookFrom_unicode_alone (unicodeCode?_append hp.1 hp.2 rest)
      (by rw [hdrop]; exact hlow _ rfl) done
    rwa [hdrop] at hread
  | braced digits =>
    rw [Piece.decodeUnits_units hp rfl]
    have hread := cookFrom_unicode_alone (unicodeCode?_braced hp.1 hp.2.1 hp.2.2 rest)
      (by rw [drop_braced]; exact hlow _ rfl) done
    rw [drop_braced] at hread
    simpa [Piece.write] using hread

end Write

/-! ### The second half of a pair -/

theorem lowEscape?_write {p : Piece} (hp : p.Valid) (rest : List Char) :
    lowEscape? (p.write ++ rest) = p.low? := by
  cases p with
  | plain c =>
    rw [Piece.write, List.singleton_append, lowEscape?]
    · rfl
    · intro _ hcs
      exact absurd (List.cons.inj hcs).1 hp.1
  | lineEnd text => rcases hp with rfl | rfl <;> rfl
  | continuation text =>
    simp only [Piece.Valid, lineEnds, List.mem_cons, List.not_mem_nil, or_false] at hp
    rcases hp with rfl | rfl | rfl | rfl | rfl <;> rfl
  | single c =>
    rw [Piece.write, List.cons_append, List.singleton_append, lowEscape?]
    · rfl
    · rintro _ ⟨⟩
      exact absurd rfl hp.2.2.1
  | null => rfl
  | hex digits => rfl
  | unicode digits =>
    have hnumber := Text.hexNumber_append hp.2 0 rest
    rw [hp.1] at hnumber
    rw [Piece.write, List.cons_append, List.cons_append, lowEscape?, hnumber]
    rfl
  | braced digits => rfl

theorem lowEscape?_of_spells {ps : List Piece} (h : Spells ps cs) :
    lowEscape? cs = ps.head?.bind Piece.low? := by
  cases h with
  | nil => rfl
  | cons hp hends h => exact lowEscape?_write hp _

/-- Where a second half is found, a piece of four digits stands. -/
theorem exists_piece_of_lowEscape? {low : Nat} (h : lowEscape? cs = some low) :
    ∃ p : Piece, p.Valid ∧ p.low? = some low ∧ cs = p.write ++ cs.drop 6 := by
  unfold lowEscape? at h
  split at h
  · next cs =>
    obtain ⟨hnumber, hlow⟩ := Option.filter_eq_some_iff.1 h
    obtain ⟨digits, rest, rfl, hlen, hall, rfl⟩ := Text.exists_digits_of_hexNumber hnumber
    refine ⟨.unicode digits, ⟨hlen, hall⟩, Option.filter_eq_some_iff.2 ⟨rfl, hlow⟩, ?_⟩
    rw [List.drop_succ_cons, List.drop_succ_cons, ← hlen, List.drop_left]
    rfl
  · exact absurd h (by simp)

theorem Piece.low?_eq_some_iff {p : Piece} {low : Nat} :
    p.low? = some low ↔ ∃ digits, p = .unicode digits ∧ number digits = low
      ∧ isLowSurrogate low = true := by
  cases p with
  | unicode digits =>
    rw [Piece.low?, Option.filter_eq_some_iff]
    constructor
    · rintro ⟨hlow, hhalf⟩
      exact ⟨digits, rfl, Option.some.inj hlow, hhalf⟩
    · rintro ⟨_, ⟨⟩, rfl, hhalf⟩
      exact ⟨rfl, hhalf⟩
  | _ => simp [Piece.low?]

theorem Piece.length_write_of_low? {p : Piece} {low : Nat} (hp : p.Valid) (h : p.low? = some low) :
    p.write.length = 6 := by
  obtain ⟨digits, rfl, -, -⟩ := Piece.low?_eq_some_iff.1 h
  rw [Piece.write, List.length_cons, List.length_cons, hp.1]

theorem Piece.endsBefore_of_low? {p : Piece} {low : Nat} (h : p.low? = some low)
    (next : List Char) : p.EndsBefore next := by
  obtain ⟨digits, rfl, -, -⟩ := Piece.low?_eq_some_iff.1 h
  trivial

theorem Piece.high?_of_low? {p : Piece} {low : Nat} (h : p.low? = some low) :
    p.high? = none := by
  obtain ⟨digits, rfl, rfl, hlow⟩ := Piece.low?_eq_some_iff.1 h
  rw [Piece.high?, Piece.code?, Option.filter_some, isHighSurrogate_of_isLowSurrogate hlow]
  rfl

theorem Piece.length_write_pos {p : Piece} (hp : p.Valid) : 0 < p.write.length := by
  cases p with
  | lineEnd text => rcases hp with rfl | rfl <;> decide
  | _ => exact Nat.succ_pos _

/-! ### Reading rows of pieces -/

/-- Behind a backslash and a u, a code that is read is a piece. -/
theorem exists_piece_of_unicodeCode? {code n : Nat} (h : unicodeCode? cs = some (code, n)) :
    ∃ p : Piece, p.Valid ∧ p.EndsBefore (cs.drop n) ∧ '\\' :: 'u' :: cs = p.write ++ cs.drop n := by
  unfold unicodeCode? at h
  split at h
  · next cs =>
    obtain ⟨⟨v, m⟩, hbraced, hout⟩ := Option.map_eq_some_iff.1 h
    obtain ⟨digits, rest, rfl, hm, hne, hall, rfl, hle⟩ := exists_digits_of_bracedCode? hbraced
    obtain ⟨-, rfl⟩ := Prod.mk.inj hout
    have hn : m + 2 = digits.length + 2 := by omega
    rw [hn, drop_braced]
    refine ⟨.braced digits, ⟨?_, hall, hle⟩, trivial, by simp [Piece.write]⟩
    rintro rfl
    exact hne hm
  · obtain ⟨_, hnumber, hout⟩ := Option.map_eq_some_iff.1 h
    obtain ⟨digits, rest, rfl, hlen, hall, -⟩ := Text.exists_digits_of_hexNumber hnumber
    obtain ⟨-, rfl⟩ := Prod.mk.inj hout
    rw [← hlen, List.drop_left]
    exact ⟨.unicode digits, ⟨hlen, hall⟩, trivial, rfl⟩

theorem exists_piece_of_escape? {out : List Char} {n : Nat} (h : escape? cs = some (out, n)) :
    ∃ (p : Piece) (rest : List Char), p.Valid ∧ p.EndsBefore rest
      ∧ '\\' :: cs = p.write ++ rest := by
  unfold escape? at h
  split at h
  · exact absurd h (by simp)
  · exact ⟨.single 'n', _, by decide, trivial, rfl⟩
  · exact ⟨.single 't', _, by decide, trivial, rfl⟩
  · exact ⟨.single 'r', _, by decide, trivial, rfl⟩
  · exact ⟨.single 'b', _, by decide, trivial, rfl⟩
  · exact ⟨.single 'f', _, by decide, trivial, rfl⟩
  · exact ⟨.single 'v', _, by decide, trivial, rfl⟩
  · next cs =>
    obtain ⟨_, hnumber, -⟩ := Option.map_eq_some_iff.1 h
    obtain ⟨digits, rest, rfl, hlen, hall, -⟩ := Text.exists_digits_of_hexNumber hnumber
    exact ⟨.hex digits, rest, ⟨hlen, hall⟩, trivial, rfl⟩
  · next cs =>
    obtain ⟨_, hunicode, -⟩ := Option.map_eq_some_iff.1 h
    cases hcode : unicodeCode? cs with
    | none => exact absurd hunicode (by simp [unicodeEscape?, hcode])
    | some code =>
      obtain ⟨p, hp, hends, hcs⟩ := exists_piece_of_unicodeCode? hcode
      exact ⟨p, _, hp, hends, hcs⟩
  · exact ⟨.continuation ['\r', '\n'], _, by decide, fun h => absurd h (by decide), rfl⟩
  · next cs hcs =>
    refine ⟨.continuation ['\r'], cs, by decide, fun _ hhead => ?_, rfl⟩
    obtain ⟨cs, rfl⟩ := List.head?_eq_some_iff.1 hhead
    exact hcs cs rfl
  · exact ⟨.continuation ['\n'], _, by decide, fun h => absurd h (by decide), rfl⟩
  · next cs =>
    split at h
    · exact absurd h (by simp)
    · next hdigit =>
      refine ⟨.null, cs, trivial, fun c hc => ?_, rfl⟩
      rw [Option.mem_def.1 hc, Option.any_some] at hdigit
      exact eq_false_of_ne_true hdigit
  · next c cs _ _ _ _ _ _ hx hu _ hcr hlf _ =>
    split at h
    · exact absurd h (by simp)
    · next hdigit =>
      split at h
      · next hsep =>
        rw [Bool.or_eq_true, beq_iff_eq, beq_iff_eq] at hsep
        rcases hsep with rfl | rfl
        · exact ⟨.continuation ['\u2028'], cs, by decide, fun h => absurd h (by decide), rfl⟩
        · exact ⟨.continuation ['\u2029'], cs, by decide, fun h => absurd h (by decide), rfl⟩
      · next hsep =>
        refine ⟨.single c, cs, ⟨eq_false_of_ne_true hdigit, hx, hu, ?_⟩, trivial, rfl⟩
        rw [Bool.or_eq_true, beq_iff_eq, beq_iff_eq, not_or] at hsep
        simp only [lineEnds, List.mem_cons, List.cons.injEq, and_true, List.not_mem_nil, or_false,
          reduceCtorEq, and_false, false_or, not_or]
        exact ⟨hlf, hcr, hsep⟩

/-- A text that is spelled by pieces has the value of the pieces. -/
theorem cookFrom_of_spells {ps : List Piece} (h : Spells ps cs) (done : List Char) :
    cookFrom done cs = some (done.reverse ++ valueOf ps) := by
  induction ps using valueOf.induct generalizing cs done with
  | case1 =>
    cases h
    rw [cookFrom, valueOf, List.append_nil]
  | case2 p =>
    obtain _ | ⟨hp, hends, h⟩ := h
    cases h
    have halone : ∀ high low, p.high? = some high → lowEscape? [] = some low → False :=
      fun _ _ _ hlow => absurd hlow (by simp [lowEscape?])
    rw [cookFrom_write hp hends halone, cookFrom, valueOf, List.reverse_append,
      List.reverse_reverse]
  | case3 p q ps high low hlow hhigh ih =>
    obtain _ | ⟨hp, hends, h⟩ := h
    obtain _ | ⟨hq, hends', h⟩ := h
    rw [cookFrom_write_pair hp hhigh (by rw [lowEscape?_write hq, hlow]),
      ← Piece.length_write_of_low? hq hlow, List.drop_left, ih h, valueOf_pair hhigh hlow,
      List.reverse_cons, List.append_assoc, List.singleton_append]
  | case4 p q ps halone ih =>
    obtain _ | @⟨_, _, rest, hp, hends, h⟩ := h
    have hnext := lowEscape?_of_spells h
    have halone' : ∀ high low, p.high? = some high → lowEscape? rest = some low → False := by
      rw [hnext]
      exact halone
    have hvalue : valueOf (p :: q :: ps) = decodeUnits p.units ++ valueOf (q :: ps) :=
      valueOf_alone halone
    rw [cookFrom_write hp hends halone', ih h, hvalue, List.reverse_append, List.reverse_reverse,
      List.append_assoc]

/-- Text that has a value begins with a piece. -/
theorem exists_piece (hne : cs ≠ []) (h : (cookFrom done cs).isSome = true) :
    ∃ (p : Piece) (rest : List Char), p.Valid ∧ p.EndsBefore rest ∧ cs = p.write ++ rest := by
  rw [cookFrom.eq_def] at h
  split at h
  · exact absurd rfl hne
  · exact ⟨.lineEnd ['\r', '\n'], _, .inr rfl, fun h => absurd h (by decide), rfl⟩
  · next cs hcs =>
    refine ⟨.lineEnd ['\r'], cs, .inl rfl, fun _ hhead => ?_, rfl⟩
    obtain ⟨cs, rfl⟩ := List.head?_eq_some_iff.1 hhead
    exact hcs cs rfl
  · next cs =>
    split at h
    · exact absurd h (by simp)
    · next out n hescape => exact exists_piece_of_escape? hescape
  · next c cs hcrlf hcr hbackslash =>
    exact ⟨.plain c, cs, ⟨hbackslash, hcr⟩, trivial, rfl⟩

/-- Text that has a value is spelled by pieces. -/
theorem exists_spells (h : (cookFrom done cs).isSome = true) : ∃ ps, Spells ps cs := by
  induction hn : cs.length using Nat.strongRecOn generalizing cs done with
  | _ n ih =>
    subst hn
    by_cases hne : cs = []
    · exact ⟨[], hne ▸ .nil⟩
    obtain ⟨p, rest, hp, hends, rfl⟩ := exists_piece hne h
    have hlength := Piece.length_write_pos hp
    by_cases hpair : ∃ high low, p.high? = some high ∧ lowEscape? rest = some low
    · -- two pieces are read at once
      obtain ⟨high, low, hhigh, hlow⟩ := hpair
      rw [cookFrom_write_pair hp hhigh hlow] at h
      obtain ⟨q, hq, hqlow, hrest⟩ := exists_piece_of_lowEscape? hlow
      obtain ⟨ps, hps⟩ := ih _ (by simp; omega) h rfl
      refine ⟨p :: q :: ps, .cons hp hends ?_⟩
      rw [hrest]
      exact .cons hq (Piece.endsBefore_of_low? hqlow _) hps
    · rw [cookFrom_write hp hends fun high low hhigh hlow => hpair ⟨high, low, hhigh, hlow⟩] at h
      obtain ⟨ps, hps⟩ := ih _ (by simp; omega) h rfl
      exact ⟨p :: ps, .cons hp hends hps⟩

/-- The texts that have a value are the rows of pieces. -/
theorem isSome_cookFrom_iff : (cookFrom done cs).isSome = true ↔ ∃ ps, Spells ps cs := by
  constructor
  · exact exists_spells
  · rintro ⟨ps, hps⟩
    rw [cookFrom_of_spells hps]
    rfl

end ElementLens.Template
