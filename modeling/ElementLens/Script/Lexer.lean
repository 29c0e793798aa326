/-
Reading the terminals of scripts.

What the next terminal is depends on the place: of the terminals that fit
there, the longest one at the front of the text is read. A word is a keyword
where the keyword fits, and a name otherwise. Some terminals are looked for
first, because they depend on more than their own text: plain text of
templates and between tags, implied semicolons, and the mark of a condition.

* **`special?`** — terminals that are looked for first;
* **`plain?`** — the others;
* **`lex`** — the next terminal.
-/
import ElementLens.Parsing.Parser
import ElementLens.Script.Grammar
import ElementLens.Script.Semicolon
import ElementLens.Script.Token
import Std.Data.HashMap

namespace ElementLens.Script

/-- What fits at a place. -/
structure Expected where
  valid : Array Bool

/-- Whether a terminal fits, given its number. -/
def Expected.hasIndex (e : Expected) (i : Nat) : Bool := e.valid.getD i false

/-- Whether a terminal fits. -/
def Expected.has (e : Expected) (t : Terminal) : Bool := e.hasIndex t.index

/-- What the lexer reads. -/
abbrev Reading := Parsing.Reading Unit

/-- The reading of a terminal behind some blanks. -/
def readingOf (t : Terminal) (blank length : Nat) : Reading :=
  ⟨some t.index, blank, length, none, false⟩

/-! ### Terminals that are looked for first -/

/-- The number of the operator `||`, which fits where an operand has been
read. -/
def orIndex : Nat := Terminal.index (.literal "||")

/-- The terminal that depends on more than its own text. -/
def special? (e : Expected) (cs : List Char) : Option Reading :=
  if e.has .templateText then
    match templateTextLength 0 cs with
    | 0 => none
    | n => some (readingOf .templateText 0 n)
  else
    match if e.has .jsxText then jsxTextLength cs else 0 with
    | n + 1 => some (readingOf .jsxText 0 (n + 1))
    | 0 =>
      if e.has .impliedSemicolon then
        if impliesSemicolon (e.hasIndex orIndex) cs then some (readingOf .impliedSemicolon 0 0)
        else if e.has .conditionMark then
          (conditionMarkAfter? cs).map fun blank => readingOf .conditionMark blank 1
        else none
      else if e.has .conditionMark then
        (conditionMark? cs).map fun blank => readingOf .conditionMark blank 1
      else if e.hasIndex orIndex || e.has .escape || e.has .regexBody then none
      else
        let blank := (cs.takeWhile fun c => isAsciiBlank c || isLineBreak c).length
        match markupCommentLength (cs.drop blank) with
        | 0 => none
        | n => some (readingOf .markupComment blank n)

/-! ### The other terminals -/

/-- A literal that is a mark: its characters, their number, and the number of
the terminal. -/
structure Mark where
  chars : List Char
  length : Nat
  index : Nat

/-- Whether a literal is a word. -/
def isWordLiteral (text : String) : Bool :=
  match text.toList with
  | c :: _ => c.isAlpha
  | [] => false

/-- The marks by the code of their first character, longest first. -/
def marks : Array (List Mark) :=
  let all : List Mark := (literals.filter fun s => !isWordLiteral s).map fun s =>
    ⟨s.toList, s.length, Terminal.index (.literal s)⟩
  let sorted := all.mergeSort fun a b => b.length ≤ a.length
  sorted.reverse.foldl (fun groups m =>
    match m.chars with
    | c :: _ => groups.modify c.toNat (m :: ·)
    | [] => groups) (Array.replicate 128 [])

/-- The numbers of the words that are literals. -/
def words : Std.HashMap String Nat :=
  (literals.filter isWordLiteral).foldl (fun m s => m.insert s (Terminal.index (.literal s))) ∅

/-- The numbers of all words. -/
def wordIndices : List Nat :=
  (literals.filter isWordLiteral).map fun s => Terminal.index (.literal s)

/-- The longest mark at the front that fits. -/
def markAt? (e : Expected) (cs : List Char) : Option Mark :=
  match cs with
  | [] => none
  | c :: _ => (marks.getD c.toNat []).find? fun m => e.hasIndex m.index && m.chars.isPrefixOf cs

/-- The longest of some terminals, given by number and length; of equally long
ones the first. -/
def longest? (found : List (Nat × Nat)) : Option (Nat × Nat) :=
  found.foldl (fun best x =>
    if x.2 == 0 then best
    else match best with
      | none => some x
      | some b => if b.2 < x.2 then some x else some b) none

/-- The terminals among some that fit, with their lengths. -/
def measure (e : Expected) (cs : List Char) (ts : List (Terminal × (List Char → Nat))) :
    List (Nat × Nat) :=
  ts.filterMap fun (t, length) => if e.has t then some (t.index, length cs) else none

/-- Pieces of literals: they begin right here and come before all others. -/
def tightPieces : List (Terminal × (List Char → Nat)) :=
  [(.doubleFragment, fragmentLength '"'), (.singleFragment, fragmentLength '\''),
    (.jsxDoubleFragment, jsxFragmentTail '"' 0), (.jsxSingleFragment, jsxFragmentTail '\'' 0),
    (.regexEnd, fun cs => if cs.head? == some '/' then 1 else 0)]

/-- Other terminals that begin right here. -/
def tightTerminals : List (Terminal × (List Char → Nat)) :=
  [(.escape, escapeLength), (.regexFlags, flagsLength)]

/-- Terminals that blanks may stand in front of. -/
def looseTerminals : List (Terminal × (List Char → Nat)) :=
  [(.privateName, fun cs => match cs with
      | '#' :: rest => match nameLength rest with
        | 0 => 0
        | n => n + 1
      | _ => 0),
    (.number, numberLength),
    (.hashbang, fun cs => match cs with
      | '#' :: '!' :: _ => (cs.takeWhile (· != '\n')).length
      | _ => 0),
    (.hyphenName, hyphenNameLength), (.reference, referenceLength),
    (.staticGet, staticGetLength)]

/-- The length of a name, if a name or a word fits. -/
def namesAt (e : Expected) (cs : List Char) : List (Nat × Nat) :=
  if e.has .name || wordIndices.any e.hasIndex then [(Terminal.name.index, nameLength cs)] else []

/-- The terminal at the front that depends on its text only: its number, the
blanks in front of it and its length. Comments fit everywhere. -/
def plain? (e : Expected) (cs : List Char) : Option (Nat × Nat × Nat) :=
  match longest? (measure e cs tightPieces) with
  | some (t, n) => some (t, 0, n)
  | none =>
    let blank := (cs.takeWhile isBlank).length
    let rest := cs.drop blank
    let mark := ((markAt? e rest).map fun m => (m.index, m.length)).toList
    let tight := if blank = 0 then measure e cs tightTerminals else []
    let comment := [(Terminal.comment.index, commentLength rest)]
    match longest? (mark ++ tight ++ comment ++ measure e rest looseTerminals ++ namesAt e rest) with
    | some (t, n) => some (t, blank, n)
    | none =>
      match if e.has .regexBody then regexBodyLength cs else 0 with
      | n + 1 => some (Terminal.regexBody.index, 0, n + 1)
      | 0 => if rest.isEmpty then some (Terminal.endOfText.index, blank, 0) else none

/-! ### The lexer -/

/-- The next terminal. A word is read as a keyword if that fits. -/
def lex (s : Parsing.Sight Unit) : Reading :=
  let e : Expected := ⟨s.valid.getD #[]⟩
  match special? e s.text with
  | some r => r
  | none =>
    match plain? e s.text with
    | none => ⟨none, 0, 0, none, false⟩
    | some (t, blank, length) =>
      let keyword :=
        if t == Terminal.name.index then
          (words[String.ofList ((s.text.drop blank).take length)]?).filter e.hasIndex
        else none
      match keyword with
      | some k => ⟨some k, blank, length, none, true⟩
      | none => ⟨some t, blank, length, none, false⟩

/-- The language of scripts. A text with a mistake is no script. -/
def language : Parsing.Language Kind Unit where
  table := table
  lex := lex
  isExtra := fun t => t == Terminal.comment.index || t == Terminal.markupComment.index
  isVisible := fun t => match terminalAt? t with
    | some .endOfText | some .impliedSemicolon | none => false
    | some _ => true
  showsConstruct := fun c => match constructAt? c with
    | some c => c.isShown
    | none => false
  word := some Terminal.name.index
  isForgiving := false

end ElementLens.Script
