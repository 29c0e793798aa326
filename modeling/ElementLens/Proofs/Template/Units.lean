/-
UTF-16 code units.

Text in UTF-16 is a row of code units. A code point up to `0xFFFF` is one unit, one
above it a pair of surrogates. Read back leniently (`decodeUnits`), a pair is one
character again, and a surrogate that is not in a pair is the replacement character:

* **`decodeUnits_encode`** — the units of a text read back are the text;
* **`decodeUnits_encodeUnits_append`** — a code point that does not begin a pair is read
  by itself;
* **`decodeUnits_high_append`** — and so is one that begins a pair, if no second half
  follows.
-/
import ElementLens.Template.Cooked

namespace ElementLens.Template

/-- The code units of a code point. -/
def encodeUnits (code : Nat) : List Nat :=
  if code < 0x10000 then [code]
  else [0xD800 + (code - 0x10000) / 0x400, 0xDC00 + (code - 0x10000) % 0x400]

/-- The text that code units write. Surrogates without a partner become replacement
characters. -/
def decodeUnits : List Nat → List Char
  | [] => []
  | [unit] => [ofCodePoint unit]
  | unit :: next :: units =>
    if isHighSurrogate unit && isLowSurrogate next then
      ofCodePoint (ofSurrogates unit next) :: decodeUnits units
    else ofCodePoint unit :: decodeUnits (next :: units)

variable {code unit high low : Nat} {units : List Nat}

/-! ### Code points -/

theorem isHighSurrogate_eq_true_iff : isHighSurrogate code = true ↔ 0xD800 ≤ code ∧ code < 0xDC00 := by
  simp [isHighSurrogate]

theorem isLowSurrogate_eq_true_iff : isLowSurrogate code = true ↔ 0xDC00 ≤ code ∧ code < 0xE000 := by
  simp [isLowSurrogate]

theorem isHighSurrogate_of_isLowSurrogate (h : isLowSurrogate code = true) :
    isHighSurrogate code = false := by
  rw [isLowSurrogate_eq_true_iff] at h
  rw [← Bool.not_eq_true, isHighSurrogate_eq_true_iff]
  omega

/-- No character is a surrogate. -/
theorem isHighSurrogate_toNat (c : Char) : isHighSurrogate c.toNat = false := by
  rw [← Bool.not_eq_true, isHighSurrogate_eq_true_iff]
  have hc : c.toNat.isValidChar := c.valid
  simp only [Nat.isValidChar] at hc
  omega

theorem toNat_le (c : Char) : c.toNat ≤ 0x10FFFF := by
  have hc : c.toNat.isValidChar := c.valid
  simp only [Nat.isValidChar] at hc
  omega

theorem ofCodePoint_toNat (c : Char) : ofCodePoint c.toNat = c := by
  have hc : c.toNat.isValidChar := c.valid
  rw [ofCodePoint, if_pos hc]
  exact Char.ofNat_toNat c

theorem ofCodePoint_of_isHighSurrogate (h : isHighSurrogate code = true) :
    ofCodePoint code = replacement := by
  rw [isHighSurrogate_eq_true_iff] at h
  apply if_neg
  simp only [Nat.isValidChar]
  omega

/-- A pair never writes the replacement character. -/
theorem ofCodePoint_ofSurrogates_ne (hhigh : isHighSurrogate high = true)
    (hlow : isLowSurrogate low = true) :
    ofCodePoint (ofSurrogates high low) ≠ replacement := by
  rw [isHighSurrogate_eq_true_iff] at hhigh
  rw [isLowSurrogate_eq_true_iff] at hlow
  have hcode : 0x10000 ≤ ofSurrogates high low ∧ ofSurrogates high low < 0x110000 := by
    unfold ofSurrogates
    omega
  have hvalid : (ofSurrogates high low).isValidChar := .inr ⟨by omega, hcode.2⟩
  have hnat : (ofCodePoint (ofSurrogates high low)).toNat = ofSurrogates high low := by
    rw [ofCodePoint, if_pos hvalid, Char.ofNat, dif_pos hvalid]
    rfl
  intro h
  rw [h] at hnat
  have hreplacement : replacement.toNat = 0xFFFD := rfl
  omega

/-! ### Reading units -/

theorem encodeUnits_of_lt (h : code < 0x10000) : encodeUnits code = [code] :=
  if_pos h

/-- The units of a higher code point are a pair. -/
theorem encodeUnits_of_le (h : 0x10000 ≤ code) (hle : code ≤ 0x10FFFF) :
    ∃ high low, encodeUnits code = [high, low] ∧ isHighSurrogate high = true
      ∧ isLowSurrogate low = true ∧ ofSurrogates high low = code := by
  refine ⟨_, _, if_neg (by omega), ?_, ?_, ?_⟩
  · rw [isHighSurrogate_eq_true_iff]
    omega
  · rw [isLowSurrogate_eq_true_iff]
    omega
  · unfold ofSurrogates
    omega

theorem decodeUnits_pair (hhigh : isHighSurrogate high = true)
    (hlow : isLowSurrogate low = true) (units : List Nat) :
    decodeUnits (high :: low :: units)
      = ofCodePoint (ofSurrogates high low) :: decodeUnits units := by
  rw [decodeUnits, if_pos (by rw [hhigh, hlow]; rfl)]

theorem decodeUnits_cons (h : isHighSurrogate unit = true →
      ∀ next ∈ units.head?, isLowSurrogate next = false) :
    decodeUnits (unit :: units) = ofCodePoint unit :: decodeUnits units := by
  cases units with
  | nil => rfl
  | cons next units =>
    rw [decodeUnits, if_neg]
    rw [Bool.and_eq_true]
    rintro ⟨hhigh, hlow⟩
    rw [h hhigh next rfl] at hlow
    exact absurd hlow (by simp)

theorem decodeUnits_encodeUnits_append (hle : code ≤ 0x10FFFF)
    (h : isHighSurrogate code = false) (units : List Nat) :
    decodeUnits (encodeUnits code ++ units) = ofCodePoint code :: decodeUnits units := by
  by_cases hlt : code < 0x10000
  · rw [encodeUnits_of_lt hlt, List.singleton_append]
    exact decodeUnits_cons fun hhigh => absurd hhigh (by rw [h]; simp)
  · obtain ⟨high, low, hunits, hhigh, hlow, hcode⟩ := encodeUnits_of_le (by omega) hle
    rw [hunits, List.cons_append, List.singleton_append, decodeUnits_pair hhigh hlow, hcode]

theorem decodeUnits_high_append (h : isHighSurrogate code = true)
    (hnext : ∀ next ∈ units.head?, isLowSurrogate next = false) :
    decodeUnits (encodeUnits code ++ units) = replacement :: decodeUnits units := by
  have hcode := isHighSurrogate_eq_true_iff.1 h
  rw [encodeUnits_of_lt (by omega), List.singleton_append, decodeUnits_cons fun _ => hnext,
    ofCodePoint_of_isHighSurrogate h]

theorem decodeUnits_encodeUnits (hle : code ≤ 0x10FFFF) :
    decodeUnits (encodeUnits code) = [ofCodePoint code] := by
  by_cases h : isHighSurrogate code = true
  · have hnext : ∀ next ∈ ([] : List Nat).head?, isLowSurrogate next = false := by simp
    have hunits := decodeUnits_high_append h hnext
    rwa [List.append_nil, ← ofCodePoint_of_isHighSurrogate h] at hunits
  · have hunits := decodeUnits_encodeUnits_append hle (eq_false_of_ne_true h) []
    rwa [List.append_nil] at hunits

/-- Reading the units of a text gives the text. -/
theorem decodeUnits_encode (cs : List Char) :
    decodeUnits (cs.flatMap fun c => encodeUnits c.toNat) = cs := by
  induction cs with
  | nil => rfl
  | cons c cs ih =>
    rw [List.flatMap_cons,
      decodeUnits_encodeUnits_append (toNat_le c) (isHighSurrogate_toNat c), ih,
      ofCodePoint_toNat]

/-- The first unit of a code point is no second half of a pair, unless the code point
is one itself. -/
theorem head?_encodeUnits (hle : code ≤ 0x10FFFF) (units : List Nat) :
    ∃ unit, (encodeUnits code ++ units).head? = some unit
      ∧ (isLowSurrogate unit = true ↔ isLowSurrogate code = true) := by
  by_cases hlt : code < 0x10000
  · rw [encodeUnits_of_lt hlt]
    exact ⟨code, rfl, Iff.rfl⟩
  · obtain ⟨high, low, hunits, hhigh, -, -⟩ := encodeUnits_of_le (by omega) hle
    rw [hunits]
    refine ⟨high, rfl, ?_⟩
    rw [isHighSurrogate_eq_true_iff] at hhigh
    rw [isLowSurrogate_eq_true_iff, isLowSurrogate_eq_true_iff]
    omega

end ElementLens.Template
