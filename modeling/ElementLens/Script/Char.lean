/-
Characters of scripts.

Which characters are blank, which end a line, and which may stand in a name.
A name may hold any character that is neither a control character nor blank
nor an ASCII mark other than `$` and `_`, so most of what lies outside ASCII;
digits may not come first.
-/
import ElementLens.Text.Hex

namespace ElementLens.Script

/-- Line breaks that end a line comment in every case and allow an automatic
semicolon. -/
def isLineBreak (c : Char) : Bool :=
  c == '\n' || c.toNat == 0x2028 || c.toNat == 0x2029

/-- ASCII blanks. -/
def isAsciiBlank (c : Char) : Bool :=
  c == ' ' || (0x09 ≤ c.toNat && c.toNat ≤ 0x0d)

/-- Blanks between tokens: ASCII blanks, space separators, line and paragraph
separators, and three characters without width. -/
def isBlank (c : Char) : Bool :=
  let n := c.toNat
  isAsciiBlank c || n == 0xa0 || n == 0x1680 || (0x2000 ≤ n && n ≤ 0x200b)
    || n == 0x2028 || n == 0x2029 || n == 0x202f || n == 0x205f || n == 0x2060
    || n == 0x3000 || n == 0xfeff

/-- ASCII marks that no name may hold. -/
def isMark (c : Char) : Bool :=
  let n := c.toNat
  (0x21 ≤ n && n ≤ 0x23) || (0x25 ≤ n && n ≤ 0x2f) || (0x3a ≤ n && n ≤ 0x40)
    || (0x5b ≤ n && n ≤ 0x5e) || n == 0x60 || (0x7b ≤ n && n ≤ 0x7e)

/-- Characters that may stand in a name after the first. -/
def isNamePart (c : Char) : Bool :=
  0x20 < c.toNat && !isMark c && !isBlank c

/-- Characters that may begin a name. -/
def isNameStart (c : Char) : Bool :=
  isNamePart c && !c.isDigit

/-- The number of leading hexadecimal digits. -/
def hexRun (cs : List Char) : Nat :=
  (cs.takeWhile Text.isHex).length

/-- The length of what follows `\u` in an escape: four hexadecimal digits, or
some in braces. -/
def unicodeEscape? (cs : List Char) : Option Nat :=
  match cs with
  | '{' :: rest =>
    let n := hexRun rest
    if 0 < n && rest[n]? == some '}' then some (n + 2) else none
  | _ => if 4 ≤ hexRun (cs.take 4) then some 4 else none

/-- The length of what follows the backslash of an escape in a string or
template. `\x` needs two hexadecimal digits and `\u` four or some in braces;
up to three octal digits, a line break, and any other character may follow. -/
def escape? (cs : List Char) : Option Nat :=
  match cs with
  | [] => none
  | 'x' :: rest => if 2 ≤ hexRun (rest.take 2) then some 3 else none
  | 'u' :: rest => (unicodeEscape? rest).map (· + 1)
  | c :: rest =>
    if '0' ≤ c && c ≤ '7' then
      some (((c :: rest.take 2).takeWhile fun d => '0' ≤ d && d ≤ '7').length)
    else if c == '\r' || c == '?' then
      match rest with
      | d :: _ => some (if isLineBreak d then 2 else 1)
      | [] => some 1
    else if c.toNat == 0 then none
    else some 1

end ElementLens.Script
