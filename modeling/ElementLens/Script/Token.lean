/-
Lengths of terminals.

Each function looks at the front of a text and counts the characters of one
sort of terminal, zero if there is none. Which of them is asked depends on
the place: a slash begins a regular expression where an operand is expected
and divides where an operator is; inside a template or between tags most
characters are plain text.
-/
import ElementLens.Script.Char

namespace ElementLens.Script

/-! ### Names -/

/-- Counts the characters of a name after its first. `skip` of them belong to
an escape that has been checked already. -/
def nameTail (skip n : Nat) : List Char → Nat
  | [] => n
  | c :: cs =>
    match skip with
    | k + 1 => nameTail k (n + 1) cs
    | 0 =>
      if isNamePart c then nameTail 0 (n + 1) cs
      else if c == '\\' then
        match cs with
        | 'u' :: rest =>
          match unicodeEscape? rest with
          | some k => nameTail (k + 1) (n + 1) cs
          | none => n
        | _ => n
      else n

/-- The length of the name at the front, zero if there is none. -/
def nameLength (cs : List Char) : Nat :=
  match cs with
  | [] => 0
  | c :: _ => if isNameStart c || c == '\\' then nameTail 0 0 cs else 0

/-! ### Numbers -/

/-- The length of digits in which single underscores may stand. `gap` says
that the last character was an underscore. -/
def digitTail (isDigit : Char → Bool) (gap : Bool) (n : Nat) : List Char → Nat
  | [] => if gap then n - 1 else n
  | c :: cs =>
    if isDigit c then digitTail isDigit false (n + 1) cs
    else if c == '_' && !gap && 0 < n then digitTail isDigit true (n + 1) cs
    else if gap then n - 1 else n

/-- The length of the digits at the front. -/
def digitRun (isDigit : Char → Bool) (cs : List Char) : Nat :=
  digitTail isDigit false 0 cs

/-- The length of an exponent, zero if there is none. -/
def exponentLength (cs : List Char) : Nat :=
  match cs with
  | e :: rest =>
    if e == 'e' || e == 'E' then
      match rest with
      | s :: more =>
        if s == '+' || s == '-' then
          let n := digitRun Char.isDigit more
          if n = 0 then 0 else n + 2
        else
          let n := digitRun Char.isDigit rest
          if n = 0 then 0 else n + 1
      | [] => 0
    else 0
  | [] => 0

/-- The length with the suffix of a big integer, if it is there. -/
def withBigSuffix (n : Nat) (cs : List Char) : Nat :=
  if cs[n]? == some 'n' then n + 1 else n

/-- The length of a number with the prefix `0x`, `0o` or `0b`, zero if there
is none. -/
def radixLength (cs : List Char) : Nat :=
  match cs with
  | '0' :: x :: rest =>
    let digits :=
      if x == 'x' || x == 'X' then digitRun Text.isHex rest
      else if x == 'o' || x == 'O' then digitRun (fun c => '0' ≤ c && c ≤ '7') rest
      else if x == 'b' || x == 'B' then digitRun (fun c => c == '0' || c == '1') rest
      else 0
    if digits = 0 then 0 else withBigSuffix (digits + 2) cs
  | _ => 0

/-- The length of the whole part that a fraction or an exponent may follow:
a single zero, or digits with at most one leading zero. -/
def wholeLength (cs : List Char) : Nat :=
  match cs with
  | '0' :: d :: rest => if d.isDigit && d != '0' then 1 + digitRun Char.isDigit (d :: rest) else 1
  | '0' :: [] => 1
  | _ => digitRun Char.isDigit cs

/-- The length of a decimal number with a fraction or an exponent, zero if
there is none. -/
def fractionLength (cs : List Char) : Nat :=
  let whole := wholeLength cs
  let rest := cs.drop whole
  match rest with
  | '.' :: more =>
    let digits := digitRun Char.isDigit more
    if whole = 0 && digits = 0 then 0
    else whole + 1 + digits + exponentLength (more.drop digits)
  | _ =>
    let e := exponentLength rest
    if whole = 0 || e = 0 then 0 else whole + e

/-- The length of the number at the front, zero if there is none: the longest
reading wins. -/
def numberLength (cs : List Char) : Nat :=
  match cs with
  | c :: _ =>
    if c.isDigit || c == '.' then
      let plain := digitRun Char.isDigit cs
      let whole := if plain = 0 then 0 else withBigSuffix plain cs
      max (radixLength cs) (max (fractionLength cs) whole)
    else 0
  | [] => 0

/-! ### Strings, regular expressions, templates -/

/-- The length of plain text in a string with the given quote. -/
def fragmentLength (quote : Char) (cs : List Char) : Nat :=
  (cs.takeWhile fun c => !(c == quote || c == '\\' || c == '\r' || c == '\n')).length

/-- The length of an escape. -/
def escapeLength : List Char → Nat
  | '\\' :: cs => ((escape? cs).map (· + 1)).getD 0
  | _ => 0

/-- The length of the body of a regular expression: up to a slash, a line
break, or a bracket that is not closed on the line. `opened` is the place of
the open bracket, inside of which a slash is plain, `escaped` says that the
last character was a backslash. -/
def regexBodyTail (opened : Option Nat) (escaped : Bool) (n : Nat) : List Char → Nat
  | [] => opened.getD (if escaped then n - 1 else n)
  | c :: cs =>
    if c == '\n' then opened.getD (if escaped then n - 1 else n)
    else if escaped then regexBodyTail opened false (n + 1) cs
    else if c == '\\' then regexBodyTail opened true (n + 1) cs
    else if opened.isSome then
      regexBodyTail (if c == ']' then none else opened) false (n + 1) cs
    else if c == '/' then n
    else regexBodyTail (if c == '[' then some n else none) false (n + 1) cs

/-- The length of the body of a regular expression. -/
def regexBodyLength (cs : List Char) : Nat :=
  regexBodyTail none false 0 cs

/-- The length of the flags of a regular expression. -/
def flagsLength (cs : List Char) : Nat :=
  (cs.takeWhile fun c => 'a' ≤ c && c ≤ 'z').length

/-- The length of plain template text: up to a backtick, a backslash, or a
dollar sign before an opening brace. -/
def templateTextLength (n : Nat) : List Char → Nat
  | [] => n
  | '\x60' :: _ => n
  | '\\' :: _ => n
  | '$' :: '{' :: _ => n
  | _ :: cs => templateTextLength (n + 1) cs

/-! ### JSX -/

/-- The length of a reference such as `&amp;`, zero if there is none. -/
def referenceLength (cs : List Char) : Nat :=
  let closed (n : Nat) : Nat := if cs[n]? == some ';' then n + 1 else 0
  match cs with
  | '&' :: '#' :: x :: rest =>
    if x == 'x' || x == 'X' then
      let n := hexRun (rest.take 7)
      if 1 ≤ n && n ≤ 6 then closed (3 + n) else 0
    else
      let n := ((x :: rest.take 5).takeWhile Char.isDigit).length
      if 1 ≤ n && n ≤ 5 then closed (2 + n) else 0
  | '&' :: rest =>
    let n := ((rest.take 31).takeWhile Char.isAlpha).length
    if 1 ≤ n && n ≤ 30 then closed (1 + n) else 0
  | _ => 0

/-- The length of plain text in a string in a tag. It has no escapes, and an
ampersand in it must begin no reference. -/
def jsxFragmentTail (quote : Char) (n : Nat) : List Char → Nat
  | [] => n
  | '&' :: d :: cs => if d == '#' || d.isAlpha then n else jsxFragmentTail quote (n + 2) cs
  | c :: cs => if c == quote || c == '&' then n else jsxFragmentTail quote (n + 1) cs

/-- The length of plain text between tags. `fresh` says that only blanks have
been seen since a line break, `found` that there is more than such blanks;
otherwise it is no text. -/
def jsxTextTail (fresh found : Bool) (n : Nat) : List Char → Nat
  | [] => if found then n else 0
  | c :: cs =>
    if c == '<' || c == '>' || c == '\x7b' || c == '\x7d' || c == '&' then
      if found then n else 0
    else if c == '\n' then jsxTextTail true found (n + 1) cs
    else
      let fresh := fresh && isAsciiBlank c
      jsxTextTail fresh (found || !fresh) (n + 1) cs

/-- The length of plain text between tags. -/
def jsxTextLength (cs : List Char) : Nat :=
  jsxTextTail false false 0 cs

/-- The length of a JSX name with hyphens, zero if there is none. -/
def hyphenNameLength (cs : List Char) : Nat :=
  let isPart (c : Char) : Bool := c.isAlphanum || c == '_' || c == '$'
  match cs with
  | c :: _ =>
    if c.isAlpha || c == '_' || c == '$' then
      let head := (cs.takeWhile isPart).length
      match cs.drop head with
      | '-' :: rest => head + 1 + (rest.takeWhile fun c => isPart c || c == '-').length
      | _ => 0
    else 0
  | [] => 0

/-! ### Class members -/

/-- The length of `static get` with a line break after it, which is one
terminal in a class body. -/
def staticGetLength (cs : List Char) : Nat :=
  match cs with
  | 's' :: 't' :: 'a' :: 't' :: 'i' :: 'c' :: rest =>
    let gap := (rest.takeWhile isAsciiBlank).length
    match rest.drop gap with
    | 'g' :: 'e' :: 't' :: more =>
      let blanks := more.takeWhile isAsciiBlank
      let upToBreak := (blanks.reverse.dropWhile (· != '\n')).length
      if 0 < gap && 0 < upToBreak then 9 + gap + upToBreak else 0
    | _ => 0
  | _ => 0

/-! ### Comments -/

/-- Counts the characters of a block comment after its opening, the closing
marks included. -/
def blockCommentTail (n : Nat) : List Char → Option Nat
  | [] => none
  | '*' :: '/' :: _ => some (n + 2)
  | _ :: cs => blockCommentTail (n + 1) cs

/-- The length of a comment. -/
def commentLength : List Char → Nat
  | '/' :: '/' :: cs => 2 + (cs.takeWhile fun c => !(isLineBreak c || c == '\r')).length
  | '/' :: '*' :: cs => (blockCommentTail 2 cs).getD 0
  | _ => 0

/-- The length of a comment in the style of markup, `<!--` or `-->` up to the
end of the line. -/
def markupCommentLength (cs : List Char) : Nat :=
  match cs with
  | '<' :: '!' :: '-' :: '-' :: _ | '-' :: '-' :: '>' :: _ =>
    (cs.takeWhile fun c => !isLineBreak c).length
  | _ => 0

end ElementLens.Script
