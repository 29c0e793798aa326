/-
Names in ASCII letters.

A label with characters outside ASCII is written as its ASCII characters, a
hyphen, and numbers that say which other characters to insert where. The
characters are inserted in the order of their code points; each number counts
how many places and code points are passed over since the last insertion. The
digits of a number have weights that adapt to the numbers before.

* **`Punycode.encode`** — the ASCII form of a label;
* **`Punycode.decode?`** — the label of an ASCII form, if it is one.
-/

namespace ElementLens.Uri.Punycode

/-- The digit with a value below 36: a letter, then a decimal digit. -/
def digit (n : Nat) : Char :=
  if n < 26 then Char.ofNat (97 + n) else Char.ofNat (22 + n)

/-- The value of a digit, in either case. -/
def value? (c : Char) : Option Nat :=
  if c.isLower then some (c.toNat - 97)
  else if c.isUpper then some (c.toNat - 65)
  else if c.isDigit then some (c.toNat - 22)
  else none

/-- A digit below the threshold ends a number. The threshold depends on the
place of the digit, which counts in steps of 36. -/
def threshold (place bias : Nat) : Nat :=
  min 26 (max 1 (place - bias))

/-- Divides until the number is small; counts in steps of 36. -/
def shrink (n place : Nat) : Nat :=
  if 455 < n then shrink (n / 35) (place + 36) else place + 36 * n / (n + 38)
termination_by n
decreasing_by exact Nat.div_lt_self (by omega) (by omega)

/-- The bias after a number, when the label has `length` characters. -/
def adapt (n length : Nat) (isFirst : Bool) : Nat :=
  let n := if isFirst then n / 700 else n / 2
  shrink (n + n / length) 0

/-! ### Writing -/

/-- The digits of a number. The bound is on the number of digits. -/
def digits (bias : Nat) : Nat → Nat → Nat → List Char
  | 0, _, _ => []
  | fuel + 1, place, n =>
    let t := threshold place bias
    if n < t then [digit n]
    else digit (t + (n - t) % (36 - t)) :: digits bias fuel (place + 36) ((n - t) / (36 - t))

/-- State of writing: the digits so far in reverse order of numbers, what has
been passed over, the bias and the number of characters written. -/
structure Writing where
  out : List (List Char)
  passed : Nat
  bias : Nat
  written : Nat

/-- Passes over a character of the label or writes it, if its turn is at code
point `n`. `basic` is the number of ASCII characters. -/
def Writing.visit (basic n : Nat) (w : Writing) (c : Char) : Writing :=
  if c.toNat < n then { w with passed := w.passed + 1 }
  else if c.toNat = n then
    { out := digits w.bias (w.passed + 1) 36 w.passed :: w.out
      passed := 0
      bias := adapt w.passed (w.written + 1) (w.written == basic)
      written := w.written + 1 }
  else w

/-- Writes the characters of a label, given the code points in order. `next`
is the first code point that has not had its turn. -/
def write (label : List Char) (basic : Nat) : Nat → Writing → List Nat → Writing
  | _, w, [] => w
  | next, w, n :: ns =>
    let w := { w with passed := w.passed + (n - next) * (w.written + 1) }
    let w := label.foldl (Writing.visit basic n) w
    write label basic (n + 1) { w with passed := w.passed + 1 } ns

/-- The ASCII form of a label. -/
def encode (label : List Char) : List Char :=
  let basic := label.filter fun c => c.toNat < 0x80
  let points := ((label.filter fun c => 0x80 ≤ c.toNat).map Char.toNat).mergeSort.eraseDups
  let w := write label basic.length 0x80 ⟨[], 0, 72, basic.length⟩ points
  basic ++ (if basic.isEmpty then [] else ['-']) ++ w.out.reverse.flatten

/-! ### Reading -/

/-- State of reading: the characters so far, the code point and the place of
the next insertion, the place before the number being read, and the weight and
place of its next digit. -/
structure Reading where
  out : List Nat
  point : Nat
  place : Nat
  before : Nat
  bias : Nat
  weight : Nat
  digit : Nat

/-- Reads a digit. -/
def Reading.next (r : Reading) (d : Nat) : Reading :=
  let place := r.place + d * r.weight
  let t := threshold r.digit r.bias
  if d < t then
    let length := r.out.length + 1
    let point := r.point + place / length
    let i := place % length
    { out := r.out.take i ++ point :: r.out.drop i
      point
      place := i + 1
      before := i + 1
      bias := adapt (place - r.before) length (r.before == 0)
      weight := 1
      digit := 36 }
  else { r with place, weight := r.weight * (36 - t), digit := r.digit + 36 }

/-- The character with a code point. -/
def char? (n : Nat) : Option Char :=
  if n.isValidChar then some (Char.ofNat n) else none

/-- The label of an ASCII form. -/
def decode? (form : List Char) : Option (List Char) := do
  let after := form.reverse.takeWhile (· ≠ '-')
  let basic := if after.length < form.length then form.take (form.length - after.length - 1) else []
  let start : Reading := ⟨basic.map Char.toNat, 0x80, 0, 0, 72, 1, 36⟩
  let r ← after.reverse.foldlM (fun (r : Reading) c => (value? c).map r.next) start
  if r.digit = 36 then r.out.mapM char? else none

end ElementLens.Uri.Punycode
