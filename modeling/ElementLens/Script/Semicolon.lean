/-
Automatic semicolons.

Where a statement may end, a semicolon may be left out at the end of the
text, before a closing brace, and before a line break, unless the first token
of the next line goes on with the statement: marks such as `(`, `[`, `*` or
`,`, a single `+` or `-`, `!=`, a dot that begins no number, `in` and
`instanceof`.

Comments need care. A line comment, or a block comment that holds a line
break, ends a statement by itself only where no operand has been read
(`afterOperand` is false), so after `return` but not after a value. After a
value the question is asked again behind each comment.

A question mark at the beginning of the next line goes on with the statement
if it is that of a condition.
-/
import ElementLens.Script.Char

namespace ElementLens.Script

/-- Whether the first characters of a line allow a semicolon before them. -/
def allowsBefore : List Char → Bool
  | [] => true
  | '.' :: cs => (cs.head?.map Char.isDigit).getD false
  | '+' :: cs => cs.head? == some '+'
  | '-' :: cs => cs.head? == some '-'
  | '!' :: cs => cs.head? != some '='
  | 'i' :: 'n' :: cs =>
    let goesOn (cs : List Char) : Bool := (cs.head?.map Char.isAlpha).getD false
    if !goesOn cs then false
    else if cs.take 8 == "stanceof".toList then goesOn (cs.drop 8)
    else true
  | c :: _ => !"\x60,:;*%><=[(?^|&/".contains c

/-- Where the scan for a semicolon stands. Before the line break: in the
open, between comments, in a line comment, in a block comment (which may
have held a line break). The same three after the line break. -/
inductive SemicolonScan where
  | start | between | line | block (broken : Bool)
  | nextLine | nextLineComment | nextBlockComment
deriving DecidableEq

/-- Whether a semicolon may be left out here, judged from this place only. -/
def semicolonFrom (afterOperand : Bool) : SemicolonScan → List Char → Bool
  | .start, [] => true
  | .start, '/' :: '/' :: cs => semicolonFrom afterOperand .line cs
  | .start, '/' :: '*' :: cs => semicolonFrom afterOperand (.block false) cs
  | .start, '}' :: _ => true
  | .start, c :: cs =>
    if isLineBreak c then semicolonFrom afterOperand .nextLine cs
    else if isAsciiBlank c then semicolonFrom afterOperand .start cs
    else false
  | .between, [] => !afterOperand
  | .between, '/' :: '/' :: cs => semicolonFrom afterOperand .line cs
  | .between, '/' :: '*' :: cs => semicolonFrom afterOperand (.block false) cs
  | .between, '/' :: _ => false
  | .between, c :: cs =>
    if isAsciiBlank c then semicolonFrom afterOperand .between cs
    else if !afterOperand && c != ',' && c != '=' then true
    else if isLineBreak c then semicolonFrom afterOperand .nextLine cs
    else c == '}'
  | .line, [] => !afterOperand
  | .line, c :: cs =>
    if c == '\n' then semicolonFrom afterOperand .between cs
    else if isLineBreak c then
      if afterOperand then semicolonFrom afterOperand .nextLine cs else true
    else semicolonFrom afterOperand .line cs
  | .block _, [] => !afterOperand
  | .block broken, '*' :: '/' :: cs =>
    match cs with
    | [] => broken && !afterOperand
    | '/' :: _ => semicolonFrom afterOperand .between cs
    | c :: _ =>
      if broken && !afterOperand && c != ',' && c != '=' then true
      else semicolonFrom afterOperand .start cs
  | .block broken, c :: cs => semicolonFrom afterOperand (.block (broken || isLineBreak c)) cs
  | .nextLine, [] => true
  | .nextLine, '/' :: '/' :: cs => semicolonFrom afterOperand .nextLineComment cs
  | .nextLine, '/' :: '*' :: cs => semicolonFrom afterOperand .nextBlockComment cs
  | .nextLine, c :: cs =>
    if isAsciiBlank c then semicolonFrom afterOperand .nextLine cs else allowsBefore (c :: cs)
  | .nextLineComment, [] => true
  | .nextLineComment, c :: cs =>
    if c == '\n' then semicolonFrom afterOperand .nextLine cs
    else if isLineBreak c then true
    else semicolonFrom afterOperand .nextLineComment cs
  | .nextBlockComment, [] => true
  | .nextBlockComment, '*' :: '/' :: cs => semicolonFrom afterOperand .nextLine cs
  | .nextBlockComment, _ :: cs => semicolonFrom afterOperand .nextBlockComment cs

/-- Whether a semicolon may be left out at this place. The text begins right
after the last terminal. -/
def impliesSemicolon (afterOperand : Bool) (cs : List Char) : Bool :=
  semicolonFrom afterOperand .start cs

/-! ### The mark of a condition -/

/-- Whether a question mark begins a condition: it is neither doubled nor
followed by a dot, unless the dot begins a number. -/
def isConditionMark : List Char → Bool
  | '?' :: '?' :: _ => false
  | '?' :: '.' :: cs => (cs.head?.map Char.isDigit).getD false
  | '?' :: _ => true
  | _ => false

/-- The number of blanks in front of the mark of a condition. -/
def conditionMark? (cs : List Char) : Option Nat :=
  let blank := (cs.takeWhile isAsciiBlank).length
  if isConditionMark (cs.drop blank) then some blank else none

/-- The number of blanks in front of the mark of a condition where a semicolon
could have been implied: one line break at most may be none of the ASCII
blanks. -/
def conditionMarkAfter? (cs : List Char) : Option Nat :=
  let before := (cs.takeWhile isAsciiBlank).length
  match cs.drop before with
  | c :: rest =>
    if isLineBreak c && !(cs.take before).contains '\n' then
      (conditionMark? rest).map (before + 1 + ·)
    else conditionMark? cs
  | [] => none

end ElementLens.Script
