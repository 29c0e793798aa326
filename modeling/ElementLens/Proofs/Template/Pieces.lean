/-
Pieces of template text.

Template text is a row of pieces (`Template.Piece`): characters, line ends, and escapes
of several forms. A text is spelled by pieces (`Template.Spells`) in one way at most,
since a line end takes the line feed that follows it, and a zero is no escape before a
digit. A piece stands for code units, and the value of a row is read off its pieces
(`valueOf`):

* **`unicodeCode?_append`**, **`unicodeCode?_braced`** — the two ways to write a code point
  are read as the number of their digits;
* **`Spells.eq`** — a text is spelled by one row of pieces only;
* **`Piece.exists_unicodeCode?`** — the first half of a surrogate pair is written in one of
  these two ways.
-/
import ElementLens.Proofs.Template.Units
import ElementLens.Proofs.Text.Digits

namespace ElementLens.Template

open Text (hexValue isHex isHex_eq_true_iff numberFrom numberFrom_cons le_numberFrom number)

variable {cs rest digits : List Char}

/-! ### Codes in braces -/

/-- Digits in braces are read without an overflow, however many there are, as long as
they write a code point. -/
theorem bracedCode?_append {n count : Nat}
    (h : ∀ c ∈ digits, isHex c = true) (hle : numberFrom n digits ≤ 0x10FFFF)
    (hne : count + digits.length ≠ 0) (rest : List Char) :
    bracedCode? n count (digits ++ '}' :: rest)
      = some (numberFrom n digits, count + digits.length) := by
  induction digits generalizing n count with
  | nil =>
    have hvalue : ¬ (count = 0 ∨ 0x10FFFF < n) := by
      simp only [numberFrom, List.foldl_nil, List.length_nil] at hle hne
      omega
    rw [List.nil_append, bracedCode?, if_pos (by decide), if_neg hvalue]
    rfl
  | cons c digits ih =>
    obtain ⟨v, hv⟩ := isHex_eq_true_iff.1 (h c List.mem_cons_self)
    have hbrace : ¬ (c == '}') = true := by
      intro hc
      rw [eq_of_beq hc] at hv
      have hnone : hexValue '}' = none := by decide
      rw [hnone] at hv
      exact absurd hv (by simp)
    rw [numberFrom_cons, hv, Option.getD_some] at hle ⊢
    -- what is read so far is not more than the whole number
    have hsofar := le_numberFrom (16 * n + v) digits
    have hshift : fit? (n * 16) = some (n * 16) := if_pos (by omega)
    have hadd : fit? (n * 16 + v) = some (16 * n + v) := by
      rw [Nat.mul_comm]
      exact if_pos (by omega)
    rw [List.cons_append, bracedCode?, if_neg hbrace, hshift, hv]
    simp only [hadd]
    rw [ih (fun d hd => h d (List.mem_cons_of_mem _ hd)) hle (by omega), List.length_cons]
    congr 2
    omega

theorem exists_digits_of_bracedCode? {n count v m : Nat}
    (h : bracedCode? n count cs = some (v, m)) :
    ∃ digits rest, cs = digits ++ '}' :: rest ∧ m = count + digits.length ∧ m ≠ 0
      ∧ (∀ c ∈ digits, isHex c = true) ∧ v = numberFrom n digits ∧ v ≤ 0x10FFFF := by
  induction cs generalizing n count with
  | nil => exact absurd h (by simp [bracedCode?])
  | cons c cs ih =>
    rw [bracedCode?] at h
    split at h
    · next hc =>
      split at h
      · exact absurd h (by simp)
      · next hvalue =>
        obtain ⟨rfl, rfl⟩ := Prod.mk.inj (Option.some.inj h)
        have hbrace : c = '}' := eq_of_beq hc
        subst hbrace
        exact ⟨[], cs, rfl, rfl, by omega, by simp, rfl, by omega⟩
    · split at h
      · next shifted d hshift hd =>
        split at h
        · next value hadd =>
          obtain ⟨digits, rest, rfl, rfl, hne, hall, rfl, hle⟩ := ih h
          have hshift' : n * 16 = shifted := by
            unfold fit? at hshift
            split at hshift
            · exact Option.some.inj hshift
            · exact absurd hshift (by simp)
          have hadd' : shifted + d = value := by
            unfold fit? at hadd
            split at hadd
            · exact Option.some.inj hadd
            · exact absurd hadd (by simp)
          refine ⟨c :: digits, rest, rfl, by rw [List.length_cons]; omega, hne, ?_, ?_, hle⟩
          · intro e he
            rcases List.mem_cons.1 he with rfl | he
            · exact isHex_eq_true_iff.2 ⟨d, hd⟩
            · exact hall e he
          · rw [numberFrom_cons, hd, Option.getD_some, ← hadd', ← hshift', Nat.mul_comm]
        · exact absurd h (by simp)
      · exact absurd h (by simp)

/-- Four digits do not begin with a brace. -/
theorem append_ne_brace (hlen : digits.length = 4) (h : ∀ c ∈ digits, isHex c = true) :
    digits ++ rest ≠ '{' :: cs := by
  intro hcs
  cases digits with
  | nil => exact absurd hlen (by simp)
  | cons c digits =>
    obtain ⟨rfl, -⟩ := List.cons.inj hcs
    exact absurd (h _ List.mem_cons_self) (by decide)

theorem unicodeCode?_append (hlen : digits.length = 4) (h : ∀ c ∈ digits, isHex c = true)
    (rest : List Char) : unicodeCode? (digits ++ rest) = some (number digits, 4) := by
  have hnumber := Text.hexNumber_append h 0 rest
  rw [hlen] at hnumber
  unfold unicodeCode?
  split
  · next cs hcs => exact absurd hcs (append_ne_brace hlen h)
  · rw [hnumber]
    rfl

theorem unicodeCode?_braced (hne : digits ≠ []) (h : ∀ c ∈ digits, isHex c = true)
    (hle : number digits ≤ 0x10FFFF) (rest : List Char) :
    unicodeCode? ('{' :: (digits ++ '}' :: rest)) = some (number digits, digits.length + 2) := by
  rw [unicodeCode?, bracedCode?_append h hle (by simpa using hne), Nat.zero_add]
  rfl

theorem drop_braced (digits rest : List Char) :
    ('{' :: (digits ++ '}' :: rest)).drop (digits.length + 2) = rest := by
  have hlen : (digits ++ ['}']).length = digits.length + 1 := by simp
  rw [List.drop_succ_cons, List.append_cons, ← hlen, List.drop_left]

/-! ### Pieces -/

/-- The line ends that vanish behind a backslash. -/
def lineEnds : List (List Char) :=
  [['\n'], ['\r'], ['\r', '\n'], ['\u2028'], ['\u2029']]

/-- A piece of template text. -/
inductive Piece
  /-- A character that stands for itself. -/
  | plain (c : Char)
  /-- A line end with a carriage return. -/
  | lineEnd (text : List Char)
  /-- A backslash and a line end. -/
  | continuation (text : List Char)
  /-- A backslash and a character that is neither a digit nor begins a longer escape. -/
  | single (c : Char)
  /-- A backslash and a zero. -/
  | null
  /-- A backslash, an x and two digits. -/
  | hex (digits : List Char)
  /-- A backslash, a u and four digits. -/
  | unicode (digits : List Char)
  /-- A backslash, a u and digits in braces. -/
  | braced (digits : List Char)

namespace Piece

/-- How a piece is written. -/
def write : Piece → List Char
  | plain c => [c]
  | lineEnd text => text
  | continuation text => '\\' :: text
  | single c => ['\\', c]
  | null => ['\\', '0']
  | hex digits => '\\' :: 'x' :: digits
  | unicode digits => '\\' :: 'u' :: digits
  | braced digits => '\\' :: 'u' :: '{' :: (digits ++ ['}'])

/-- What the fields of a piece may be. -/
def Valid : Piece → Prop
  | plain c => c ≠ '\\' ∧ c ≠ '\r'
  | lineEnd text => text = ['\r'] ∨ text = ['\r', '\n']
  | continuation text => text ∈ lineEnds
  | single c => c.isDigit = false ∧ c ≠ 'x' ∧ c ≠ 'u' ∧ [c] ∉ lineEnds
  | null => True
  | hex digits => digits.length = 2 ∧ ∀ c ∈ digits, isHex c = true
  | unicode digits => digits.length = 4 ∧ ∀ c ∈ digits, isHex c = true
  | braced digits => digits ≠ [] ∧ (∀ c ∈ digits, isHex c = true) ∧ number digits ≤ 0x10FFFF

/-- Digits are checked one by one. -/
instance (digits : List Char) : Decidable (∀ c ∈ digits, isHex c = true) :=
  decidable_of_iff (digits.all isHex = true) List.all_eq_true

instance (p : Piece) : Decidable p.Valid :=
  match p with
  | plain c => inferInstanceAs (Decidable (c ≠ '\\' ∧ c ≠ '\r'))
  | lineEnd text => inferInstanceAs (Decidable (text = ['\r'] ∨ text = ['\r', '\n']))
  | continuation text => inferInstanceAs (Decidable (text ∈ lineEnds))
  | single c =>
    inferInstanceAs (Decidable (c.isDigit = false ∧ c ≠ 'x' ∧ c ≠ 'u' ∧ [c] ∉ lineEnds))
  | null => .isTrue trivial
  | hex digits => inferInstanceAs (Decidable (digits.length = 2 ∧ ∀ c ∈ digits, isHex c = true))
  | unicode digits =>
    inferInstanceAs (Decidable (digits.length = 4 ∧ ∀ c ∈ digits, isHex c = true))
  | braced digits =>
    inferInstanceAs (Decidable
      (digits ≠ [] ∧ (∀ c ∈ digits, isHex c = true) ∧ number digits ≤ 0x10FFFF))

/-- Whether a text may follow a piece: a carriage return is a piece of its own only if no
line feed follows, and a zero is escaped only if no digit follows. -/
def EndsBefore (p : Piece) (next : List Char) : Prop :=
  match p with
  | lineEnd text | continuation text => text = ['\r'] → next.head? ≠ some '\n'
  | null => ∀ c ∈ next.head?, c.isDigit = false
  | _ => True

/-- The character that stands behind a backslash for another one. -/
def escaped : Char → Char
  | 'n' => '\n'
  | 't' => '\t'
  | 'r' => '\r'
  | 'b' => '\x08'
  | 'f' => '\x0c'
  | 'v' => '\x0b'
  | c => c

/-- The code that a piece stands for. A continuation stands for nothing. -/
def code? : Piece → Option Nat
  | plain c => some c.toNat
  | lineEnd _ => some '\n'.toNat
  | continuation _ => none
  | single c => some (escaped c).toNat
  | null => some 0
  | hex digits | unicode digits | braced digits => some (number digits)

/-- The code units that a piece stands for. -/
def units (p : Piece) : List Nat :=
  p.code?.elim [] encodeUnits

/-- The first half of a surrogate pair, if a piece stands for one. -/
def high? (p : Piece) : Option Nat :=
  p.code?.filter isHighSurrogate

/-- The second half of a surrogate pair, if a piece is one of four digits that stands for
it. -/
def low? : Piece → Option Nat
  | unicode digits => (some (number digits)).filter isLowSurrogate
  | _ => none

end Piece

/-- A text is a row of pieces. -/
inductive Spells : List Piece → List Char → Prop
  | nil : Spells [] []
  | cons {p : Piece} {ps : List Piece} {rest : List Char} (hp : p.Valid)
      (hends : p.EndsBefore rest) (h : Spells ps rest) : Spells (p :: ps) (p.write ++ rest)

/-! ### One way to spell a text -/

/-- The piece that a text begins with. -/
def Piece.front? : List Char → Option Piece
  | [] => none
  | '\r' :: '\n' :: _ => some (lineEnd ['\r', '\n'])
  | '\r' :: _ => some (lineEnd ['\r'])
  | '\\' :: '\r' :: '\n' :: _ => some (continuation ['\r', '\n'])
  | '\\' :: '0' :: _ => some null
  | '\\' :: 'x' :: cs => some (hex (cs.take 2))
  | '\\' :: 'u' :: '{' :: cs => some (braced (cs.takeWhile (· != '}')))
  | '\\' :: 'u' :: cs => some (unicode (cs.take 4))
  | '\\' :: c :: _ => if [c] ∈ lineEnds then some (continuation [c]) else some (single c)
  | c :: _ => some (plain c)

theorem Piece.front?_write {p : Piece} (hp : p.Valid) (hends : p.EndsBefore rest) :
    front? (p.write ++ rest) = some p := by
  cases p with
  | plain c =>
    rw [write, List.singleton_append]
    simp [front?, hp.1, hp.2]
  | lineEnd text =>
    rcases hp with rfl | rfl
    · rw [write, List.singleton_append, front?]
      rintro _ rfl
      exact hends rfl rfl
    · rfl
  | continuation text =>
    simp only [Valid, lineEnds, List.mem_cons, List.not_mem_nil, or_false] at hp
    rcases hp with rfl | rfl | rfl | rfl | rfl
    · rfl
    · rw [write, List.cons_append, List.singleton_append, front?, if_pos (by decide)]
      · rintro _ - rfl
        exact hends rfl rfl
      all_goals simp
    · rfl
    · rfl
    · rfl
  | single c =>
    obtain ⟨hdigit, hx, hu, hend⟩ := hp
    rw [write, List.cons_append, List.singleton_append, front?, if_neg hend]
    · rintro _ rfl
      exact absurd hend (by decide)
    · rintro rfl
      exact absurd hdigit (by decide)
    · exact hx
    · rintro _ rfl
      exact absurd rfl hu
    · exact hu
  | null => rfl
  | hex digits =>
    rw [write, List.cons_append, List.cons_append, front?, ← hp.1, List.take_left]
  | unicode digits =>
    obtain ⟨hlen, hall⟩ := hp
    rw [write, List.cons_append, List.cons_append, front?, ← hlen, List.take_left]
    exact fun cs => append_ne_brace hlen hall
  | braced digits =>
    have hbrace : ∀ c ∈ digits, (c != '}') = true := by
      intro c hc
      rw [bne_iff_ne]
      rintro rfl
      exact absurd (hp.2.1 _ hc) (by decide)
    simp [write, front?, List.takeWhile_append_of_pos hbrace]

/-- A row of pieces begins with the piece that the text begins with. -/
theorem Spells.front? {ps : List Piece} (h : Spells ps cs) : Piece.front? cs = ps.head? := by
  cases h with
  | nil => rfl
  | cons hp hends _ => exact Piece.front?_write hp hends

/-- A text is spelled by one row of pieces only. -/
theorem Spells.eq {ps qs : List Piece} (hps : Spells ps cs) (hqs : Spells qs cs) : ps = qs := by
  induction ps generalizing qs cs with
  | nil =>
    have hhead := hps.front?.symm.trans hqs.front?
    exact (List.head?_eq_none_iff.1 hhead.symm).symm
  | cons p ps ih =>
    have hhead := hps.front?.symm.trans hqs.front?
    obtain ⟨qs, rfl⟩ := List.head?_eq_some_iff.1 hhead.symm
    obtain _ | @⟨_, _, rest, _, _, hps⟩ := hps
    generalize hcs : p.write ++ rest = cs at hqs
    obtain _ | @⟨_, _, rest', _, _, hqs⟩ := hqs
    rw [List.append_cancel_left hcs] at hps
    rw [ih hps hqs]

/-! ### Values -/

/-- The value of a row of pieces: the first half of a pair is joined with the second one
if that is the very next piece, and every other piece is read alone. -/
def valueOf : List Piece → List Char
  | [] => []
  | [p] => decodeUnits p.units
  | p :: q :: ps =>
    match p.high?, q.low? with
    | some high, some low => ofCodePoint (ofSurrogates high low) :: valueOf ps
    | _, _ => decodeUnits p.units ++ valueOf (q :: ps)

section Values

variable {p q : Piece} {ps : List Piece}

theorem valueOf_pair {high low : Nat} (hhigh : p.high? = some high) (hlow : q.low? = some low) :
    valueOf (p :: q :: ps) = ofCodePoint (ofSurrogates high low) :: valueOf ps := by
  simp only [valueOf, hhigh, hlow]

theorem valueOf_alone
    (halone : ∀ high low, p.high? = some high → ps.head?.bind Piece.low? = some low → False) :
    valueOf (p :: ps) = decodeUnits p.units ++ valueOf ps := by
  cases ps with
  | nil => rw [valueOf, valueOf, List.append_nil]
  | cons q ps =>
    rw [valueOf]
    split
    · next hhigh hlow => exact (halone _ _ hhigh hlow).elim
    · rfl

end Values

namespace Piece

variable {p : Piece}

theorem high?_eq_some_iff {high : Nat} :
    p.high? = some high ↔ p.code? = some high ∧ isHighSurrogate high = true :=
  Option.filter_eq_some_iff

theorem number_lt (h : ∀ c ∈ digits, isHex c = true)
    (hle : digits.length ≤ 4) : number digits < 0x10000 := by
  calc number digits
      < (0 + 1) * 16 ^ digits.length := Text.numberFrom_lt h 0
    _ ≤ (0 + 1) * 16 ^ 4 := Nat.mul_le_mul_left _ (Nat.pow_le_pow_right (by omega) hle)
    _ = 0x10000 := rfl

theorem code?_le {code : Nat} (hp : p.Valid) (h : p.code? = some code) : code ≤ 0x10FFFF := by
  cases p with
  | plain c =>
    obtain rfl := Option.some.inj h
    exact toNat_le c
  | lineEnd text =>
    obtain rfl := Option.some.inj h
    decide
  | continuation text => exact absurd h (by simp [code?])
  | single c =>
    obtain rfl := Option.some.inj h
    exact toNat_le _
  | null =>
    obtain rfl := Option.some.inj h
    decide
  | hex digits =>
    obtain rfl := Option.some.inj h
    have := number_lt hp.2 (by rw [hp.1]; decide)
    omega
  | unicode digits =>
    obtain rfl := Option.some.inj h
    have := number_lt hp.2 (Nat.le_of_eq hp.1)
    omega
  | braced digits =>
    obtain rfl := Option.some.inj h
    exact hp.2.2

theorem units_eq {code : Nat} (h : p.code? = some code) : p.units = encodeUnits code := by
  rw [units, h, Option.elim_some]

theorem decodeUnits_units {code : Nat} (hp : p.Valid) (h : p.code? = some code) :
    decodeUnits p.units = [ofCodePoint code] := by
  rw [units_eq h, decodeUnits_encodeUnits (code?_le hp h)]

/-- Only an escape that begins with a u stands for the first half of a pair. -/
theorem exists_unicodeCode? {high : Nat} (hp : p.Valid) (h : p.high? = some high)
    (rest : List Char) :
    ∃ cs n, p.write ++ rest = '\\' :: 'u' :: cs ∧ unicodeCode? cs = some (high, n)
      ∧ cs.drop n = rest := by
  obtain ⟨hcode, hhigh⟩ := high?_eq_some_iff.1 h
  have hbounds := isHighSurrogate_eq_true_iff.1 hhigh
  cases p with
  | plain c =>
    obtain rfl := Option.some.inj hcode
    exact absurd hhigh (by rw [isHighSurrogate_toNat]; simp)
  | lineEnd text =>
    obtain rfl := Option.some.inj hcode
    exact absurd hhigh (by decide)
  | continuation text => exact absurd hcode (by simp [code?])
  | single c =>
    obtain rfl := Option.some.inj hcode
    exact absurd hhigh (by rw [isHighSurrogate_toNat]; simp)
  | null =>
    obtain rfl := Option.some.inj hcode
    exact absurd hhigh (by decide)
  | hex digits =>
    obtain rfl := Option.some.inj hcode
    have hlt := Text.numberFrom_lt hp.2 0
    rw [hp.1] at hlt
    exact absurd hbounds.1 (by unfold number; omega)
  | unicode digits =>
    obtain rfl := Option.some.inj hcode
    refine ⟨digits ++ rest, 4, rfl, unicodeCode?_append hp.1 hp.2 rest, ?_⟩
    rw [← hp.1, List.drop_left]
  | braced digits =>
    obtain rfl := Option.some.inj hcode
    exact ⟨'{' :: (digits ++ '}' :: rest), digits.length + 2, by simp [write],
      unicodeCode?_braced hp.1 hp.2.1 hp.2.2 rest, drop_braced digits rest⟩

end Piece

end ElementLens.Template
