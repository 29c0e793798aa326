/-
The value of template text.

The text of a template literal as written may hold escapes. Its value has the
escapes replaced by what they stand for, every line end by a line feed, and
escaped line ends by nothing. Text with an escape that is not valid has no
value. Two escapes that write a surrogate pair stand for one character, a
surrogate alone for the replacement character.

* **`escape?`** — what the characters after a backslash stand for, and how
  many of them there are;
* **`cook`** — the value of a text, if it has one.
-/
import ElementLens.Text.Hex

namespace ElementLens.Template

/-- The character that stands for what cannot be written. -/
def replacement : Char := '\uFFFD'

/-- The character with a code point, the replacement character for a
surrogate. -/
def ofCodePoint (code : Nat) : Char :=
  if code.isValidChar then Char.ofNat code else replacement

/-- Whether a code is the first half of a surrogate pair. -/
def isHighSurrogate (code : Nat) : Bool :=
  0xD800 ≤ code && code < 0xDC00

/-- Whether a code is the second half of a surrogate pair. -/
def isLowSurrogate (code : Nat) : Bool :=
  0xDC00 ≤ code && code < 0xE000

/-- The code point that a surrogate pair writes. -/
def ofSurrogates (high low : Nat) : Nat :=
  0x10000 + (high - 0xD800) * 0x400 + (low - 0xDC00)

/-- A number, if it fits into 32 bits. -/
def fit? (n : Nat) : Option Nat :=
  if n < 0x100000000 then some n else none

/-- A code point in braces: its value and the number of its digits. `value` and
`digits` belong to the digits before. Codes past the last code point have no
value. -/
def bracedCode? (value digits : Nat) : List Char → Option (Nat × Nat)
  | [] => none
  | c :: cs =>
    if c == '}' then
      if digits = 0 ∨ 0x10FFFF < value then none else some (value, digits)
    else
      match fit? (value * 16), Text.hexValue c with
      | some shifted, some v =>
        match fit? (shifted + v) with
        | some value => bracedCode? value (digits + 1) cs
        | none => none
      | _, _ => none

/-- The code that follows `\u`, and the number of characters it takes. -/
def unicodeCode? : List Char → Option (Nat × Nat)
  | '{' :: cs => (bracedCode? 0 0 cs).map fun (code, digits) => (code, digits + 2)
  | cs => (Text.hexNumber 0 4 cs).map fun code => (code, 4)

/-- The second half of a surrogate pair at the front, written as `\u` and four
digits. -/
def lowEscape? : List Char → Option Nat
  | '\\' :: 'u' :: cs => (Text.hexNumber 0 4 cs).filter isLowSurrogate
  | _ => none

/-- What `\u` and the characters after it stand for, and how many characters
that takes. -/
def unicodeEscape? (cs : List Char) : Option (Char × Nat) :=
  match unicodeCode? cs with
  | none => none
  | some (code, length) =>
    if isHighSurrogate code then
      match lowEscape? (cs.drop length) with
      | some low => some (ofCodePoint (ofSurrogates code low), length + 6)
      | none => some (replacement, length)
    else some (ofCodePoint code, length)

/-- What the characters after a backslash stand for, and how many characters
that takes. -/
def escape? : List Char → Option (List Char × Nat)
  | [] => none
  | 'n' :: _ => some (['\n'], 1)
  | 't' :: _ => some (['\t'], 1)
  | 'r' :: _ => some (['\r'], 1)
  | 'b' :: _ => some (['\x08'], 1)
  | 'f' :: _ => some (['\x0c'], 1)
  | 'v' :: _ => some (['\x0b'], 1)
  | 'x' :: cs => (Text.hexNumber 0 2 cs).map fun code => ([ofCodePoint code], 3)
  | 'u' :: cs => (unicodeEscape? cs).map fun (c, n) => ([c], n + 1)
  | '\r' :: '\n' :: _ => some ([], 2)
  | '\r' :: _ => some ([], 1)
  | '\n' :: _ => some ([], 1)
  | '0' :: cs => if cs.head?.any Char.isDigit then none else some (['\x00'], 1)
  | c :: _ =>
    if c.isDigit then none
    else if c == '\u2028' || c == '\u2029' then some ([], 1)
    else some ([c], 1)

/-- Reads a text; `done` is the value of what was read, in reverse. -/
def cookFrom (done : List Char) : List Char → Option (List Char)
  | [] => some done.reverse
  | '\r' :: '\n' :: cs => cookFrom ('\n' :: done) cs
  | '\r' :: cs => cookFrom ('\n' :: done) cs
  | '\\' :: cs =>
    match escape? cs with
    | none => none
    | some (out, n) => cookFrom (out.reverse ++ done) (cs.drop n)
  | c :: cs => cookFrom (c :: done) cs
termination_by cs => cs.length
decreasing_by all_goals simp only [List.length_cons, List.length_drop]; omega

/-- The value of template text. -/
def cook (raw : String) : Option String :=
  (cookFrom [] raw.toList).map String.ofList

end ElementLens.Template
