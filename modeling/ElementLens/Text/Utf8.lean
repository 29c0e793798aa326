/-
Reading and writing UTF-8.

Reading never fails: bytes that are no UTF-8 come out as the replacement
character. The longest start of a character that cannot be continued, and
every byte that cannot start one, gives one of them.
-/

namespace ElementLens.Text

/-- The bytes of a text. -/
def encodeUtf8 (s : List Char) : List UInt8 :=
  s.flatMap String.utf8EncodeChar

/-- The shape of a UTF-8 sequence by its first byte: how many bytes follow,
the bits of the first byte, and the range of the second byte. -/
def leadByte (b : Nat) : Option (Nat × Nat × Nat × Nat) :=
  if b < 0x80 then some (0, b, 0, 0)
  else if 0xC2 ≤ b ∧ b ≤ 0xDF then some (1, b - 0xC0, 0x80, 0xBF)
  else if b = 0xE0 then some (2, 0, 0xA0, 0xBF)
  else if b = 0xED then some (2, 13, 0x80, 0x9F)
  else if 0xE1 ≤ b ∧ b ≤ 0xEF then some (2, b - 0xE0, 0x80, 0xBF)
  else if b = 0xF0 then some (3, 0, 0x90, 0xBF)
  else if 0xF1 ≤ b ∧ b ≤ 0xF3 then some (3, b - 0xF0, 0x80, 0xBF)
  else if b = 0xF4 then some (3, 4, 0x80, 0x8F)
  else none

/-- State of reading: `more` bytes are missing from the character with value
`value` so far; the next of them lies between `lo` and `hi`. -/
structure Utf8State where
  more : Nat
  value : Nat
  lo : Nat
  hi : Nat

/-- The character that stands for bytes that are no UTF-8. -/
def replacement : Char := Char.ofNat 0xFFFD

/-- Reads bytes; `done` is in reverse. -/
def decodeUtf8From (pending : Option Utf8State) (done : List Char) : List UInt8 → List Char
  | [] => (if pending.isSome then replacement :: done else done).reverse
  | b :: bs =>
    let n := b.toNat
    let fresh (done : List Char) : Option Utf8State × List Char :=
      match leadByte n with
      | none => (none, replacement :: done)
      | some (0, v, _, _) => (none, Char.ofNat v :: done)
      | some (more, v, lo, hi) => (some ⟨more, v, lo, hi⟩, done)
    let next : Option Utf8State × List Char :=
      match pending with
      | none => fresh done
      | some s =>
        if s.lo ≤ n ∧ n ≤ s.hi then
          let v := s.value * 64 + (n - 0x80)
          if s.more = 1 then (none, Char.ofNat v :: done)
          else (some ⟨s.more - 1, v, 0x80, 0xBF⟩, done)
        else fresh (replacement :: done)
    decodeUtf8From next.1 next.2 bs

/-- The text of some bytes. -/
def decodeUtf8 (bytes : List UInt8) : List Char :=
  decodeUtf8From none [] bytes

end ElementLens.Text
