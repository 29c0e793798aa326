/-
Reading the terminals of markup.

What the next terminal is depends on the place: names, values and text are
told apart by what can stand there. Some terminals depend on the elements
that are open: an end tag belongs to the innermost one or to none, and an
element may end without an end tag. These are looked for first.

Where the parser has lost its way, only marks and character references are
read; all other text up to the next of them is read as one stretch that fits
nowhere.

* **`scan?`** — terminals that depend on the open elements;
* **`plain?`** — the others;
* **`lex`** — the next terminal.
-/
import ElementLens.Markup.Grammar
import ElementLens.Markup.OpenTags
import ElementLens.Parsing.Parser
import ElementLens.Text.Hex

namespace ElementLens.Markup

/-- Blanks. -/
def isBlank (c : Char) : Bool :=
  c == ' ' || ('\t' ≤ c && c ≤ '\r')

/-- Characters of attribute names. -/
def isAttributeNameChar (c : Char) : Bool :=
  !(isBlank c || c == '<' || c == '>' || c == '"' || c == '\'' || c == '/' || c == '=')

/-- Characters of attribute values without quotes. -/
def isBareValueChar (c : Char) : Bool :=
  !(isBlank c || c == '<' || c == '>' || c == '"' || c == '\'' || c == '=')

/-- Characters of text. -/
def isTextChar (c : Char) : Bool :=
  !(c == '<' || c == '>' || c == '&')

/-- The character that ends comments and raw text as the end of the text
does. -/
def nul : Char := '\x00'

/-- A terminal, the number of characters of the blanks in front of it and of
the terminal itself, and the open elements after it. -/
structure Scanned where
  terminal : Terminal
  blank : Nat
  length : Nat
  tags : OpenTags

/-! ### Terminals that depend on the open elements -/

/-- The length of the part of a comment that follows `n` characters: it ends
with two or more dashes and a closing bracket. -/
def commentTail (dashes n : Nat) : List Char → Option Nat
  | [] => none
  | c :: cs =>
    if c == nul then none
    else if c == '-' then commentTail (dashes + 1) (n + 1) cs
    else if c == '>' && 2 ≤ dashes then some (n + 1)
    else commentTail 0 (n + 1) cs

/-- The length of raw text before the end tag with the given upper-case
opening. `n` counts up to the last character that did not fit, `matched` the
characters of the opening since then and `left` is the rest of it; a character
that does not fit is passed over, even if it could begin the opening. -/
def rawTextLength (opening : List Char) (n matched : Nat) (left : List Char) : List Char → Nat
  | [] => n
  | c :: cs =>
    if c == nul then n
    else
      match left with
      | [] => n
      | d :: ds =>
        if c.toUpper == d then
          if ds.isEmpty then n else rawTextLength opening n (matched + 1) ds cs
        else rawTextLength opening (n + matched + 1) 0 opening cs

/-- The opening of the end tag that ends raw text in the innermost element. -/
def rawTextEnd (tags : OpenTags) : List Char :=
  if tags.innermost? == some (.known "script") then "</SCRIPT".toList else "</STYLE".toList

/-- Whether the innermost element ends, without an end tag of its own, before
what follows an opening bracket, or at the end of the text. -/
def endsHere (tags : OpenTags) (cs : List Char) : Bool :=
  match cs with
  | '/' :: rest =>
    let word := rest.takeWhile isNameChar
    let name := OpenName.ofName (foldName word)
    if word.isEmpty && !rest.isEmpty then false
    else !tags.closes name && tags.hasSort name
  | _ =>
    if tags.isVoid then true
    else
      let word := cs.takeWhile isNameChar
      let atEnd := (cs.drop word.length).isEmpty
      if word.isEmpty && !atEnd then false
      else tags.endsBefore (foldName word) atEnd

/-- The terminal for the name of a start tag. -/
def startTerminal (name : String) : Terminal :=
  match name with
  | "script" => .scriptName
  | "style" => .styleName
  | _ => .startName

/-- The terminal at the front that depends on the open elements, among those
that fit. A slash and a closing bracket where nothing is open count as a
name. -/
def scan? (fits : Terminal → Bool) (tags : OpenTags) (cs : List Char) : Option Scanned :=
  if fits .rawText && !fits .startName && !fits .endName then
    if tags.isEmpty then none
    else
      let ending := rawTextEnd tags
      some ⟨.rawText, 0, rawTextLength ending 0 0 ending cs, tags⟩
  else
    let blank := (cs.takeWhile isBlank).length
    let implied (after : List Char) : Option Scanned :=
      if fits .impliedEnd && endsHere tags after then some ⟨.impliedEnd, blank, 0, tags.pop⟩
      else none
    match cs.drop blank with
    | [] => implied []
    | '<' :: '!' :: '-' :: '-' :: rest =>
      (commentTail 0 4 rest).map fun n => ⟨.comment, blank, n, tags⟩
    | '<' :: '!' :: _ => none
    | '<' :: rest => implied rest
    | '/' :: '>' :: _ =>
      if !fits .selfClose then none
      else if tags.isEmpty then some ⟨.startName, blank, 2, tags⟩
      else some ⟨.selfClose, blank, 2, tags.pop⟩
    | '/' :: _ => none
    | c :: rest =>
      if c == nul then implied (c :: rest)
      else if fits .rawText then none
      else
        let word := (c :: rest).takeWhile isNameChar
        let name := foldName word
        if word.isEmpty then none
        else if fits .startName then
          some ⟨startTerminal name, blank, word.length, tags.push (.ofName name)⟩
        else if fits .endName then
          let closing := OpenName.ofName name
          if tags.closes closing then some ⟨.endName, blank, word.length, tags.pop⟩
          else some ⟨.strayName, blank, word.length, tags⟩
        else none

/-! ### The other terminals -/

/-- The length of the run of characters with a property, at most `most`; none
if there is no such character. -/
def runLength? (p : Char → Bool) (most : Nat) (cs : List Char) : Option Nat :=
  match ((cs.take most).takeWhile p).length with
  | 0 => none
  | n => some n

/-- The length of the character reference at the front. The semicolon at its
end may be missing. -/
def entityLength? (cs : List Char) : Option Nat := do
  let n ← match cs with
    | '&' :: '#' :: 'x' :: ds | '&' :: '#' :: 'X' :: ds => (runLength? Text.isHex 6 ds).map (· + 3)
    | '&' :: '#' :: ds => (runLength? Char.isDigit 5 ds).map (· + 2)
    | '&' :: ds => (runLength? Char.isAlpha 30 ds).map (· + 1)
    | _ => none
  some (if (cs.drop n).head? == some ';' then n + 1 else n)

/-- The word that begins a document type declaration. -/
def doctypeWord : List Char := "doctype".toList

/-- How many characters of the word are at the front, in any case. -/
def doctypeMatch : List Char → List Char → Nat
  | d :: ds, c :: cs => if c.toLower == d then doctypeMatch ds cs + 1 else 0
  | _, _ => 0

/-- The length of the text at the front; blanks at its end are not counted. -/
def textLength (cs : List Char) : Nat :=
  ((cs.takeWhile isTextChar).reverse.dropWhile isBlank).length

/-- The mark at the front: the longest one that fits. -/
def markAt? (fits : Terminal → Bool) (cs : List Char) : Option (Terminal × Nat) :=
  let candidates : List (Terminal × Nat) := match cs with
    | '<' :: '!' :: _ => [(.declarationOpen, 2), (.tagOpen, 1)]
    | '<' :: '/' :: _ => [(.endTagOpen, 2), (.tagOpen, 1)]
    | '<' :: _ => [(.tagOpen, 1)]
    | '>' :: _ => [(.tagClose, 1)]
    | '/' :: '>' :: _ => [(.selfClose, 2)]
    | '=' :: _ => [(.equals, 1)]
    | '\'' :: _ => [(.apostrophe, 1)]
    | '"' :: _ => [(.quote, 1)]
    | _ => []
  candidates.find? fun m => fits m.1

/-- The longest of some terminals that are there; the first of those that are
equally long. -/
def longest (found : List (Terminal × Nat)) : Option (Terminal × Nat) :=
  found.foldl (fun best x =>
    if x.2 == 0 then best
    else match best with
      | none => some x
      | some b => if b.2 < x.2 then some x else some b) none

/-- The terminal at the front that does not depend on the open elements, among
those that fit, and the blanks in front of it. Text in quotes and in a
declaration begins with the blanks. -/
def plain? (fits : Terminal → Bool) (cs : List Char) : Option (Terminal × Nat × Nat) :=
  let run (t : Terminal) (p : Char → Bool) (cs : List Char) : List (Terminal × Nat) :=
    if fits t then [(t, (cs.takeWhile p).length)] else []
  let loose := run .doctypeBody (· != '>') cs ++ run .apostropheValue (· != '\'') cs
    ++ run .quoteValue (· != '"') cs
  match longest loose with
  | some (t, n) => some (t, 0, n)
  | none =>
    let blank := (cs.takeWhile isBlank).length
    let cs := cs.drop blank
    let word := if fits .doctypeWord && doctypeMatch doctypeWord cs == doctypeWord.length then
        [(Terminal.doctypeWord, doctypeWord.length)] else []
    let reference := if fits .entity then [(Terminal.entity, (entityLength? cs).getD 0)] else []
    let text := if fits .text then
        match cs with
        | c :: _ => if isBlank c then [] else [(Terminal.text, textLength cs)]
        | [] => []
      else []
    let found := longest ((markAt? fits cs).toList ++ word ++ run .attributeName isAttributeNameChar cs
      ++ run .bareValue isBareValueChar cs ++ reference ++ text)
    match found with
    | some (t, n) => some (t, blank, n)
    | none => if cs.isEmpty then some (.endOfText, blank, 0) else none

/-! ### The lexer -/

/-- Terminals that are read where the way is lost. -/
def isLandmark : Terminal → Bool
  | .declarationOpen | .tagClose | .doctypeWord | .tagOpen | .selfClose | .endTagOpen | .equals
  | .entity | .apostrophe | .quote => true
  | _ => false

/-- How many characters look like the beginning of a terminal where none is
found. -/
def falseStart (cs : List Char) : Nat :=
  match cs with
  | '/' :: _ => 1
  | '&' :: '#' :: 'x' :: _ | '&' :: '#' :: 'X' :: _ => 3
  | '&' :: '#' :: _ => 2
  | '&' :: _ => 1
  | _ => doctypeMatch doctypeWord cs

/-- What the lexer reads, with terminals in the place of their numbers. -/
abbrev Reading := Parsing.Reading OpenTags

/-- The reading of a terminal that depends on the open elements. -/
def Scanned.reading (s : Scanned) (skipped : Nat) : Reading :=
  ⟨some s.terminal.number, skipped + s.blank, s.length, some s.tags, false⟩

/-- The terminal where the way is lost, if one begins right here. Empty ones
are not read. -/
def lostTerminal? (tags : OpenTags) (cs : List Char) : Option Reading :=
  match (scan? (fun _ => true) tags cs).filter fun s => 0 < s.blank + s.length with
  | some s => some (s.reading 0)
  | none => (plain? isLandmark cs).map fun (t, blank, length) =>
    ⟨some t.number, blank, length, none, false⟩

/-- The length of text that fits nowhere, up to the next terminal, when `n`
characters of it have been passed. -/
def unreadable (tags : OpenTags) (n : Nat) (cs : List Char) : Nat :=
  match cs with
  | [] => n
  | c :: rest =>
    match lostTerminal? tags (c :: rest) with
    | some _ => n
    | none =>
      let blank := ((c :: rest).takeWhile isBlank).length
      let passed := blank + falseStart ((c :: rest).drop blank)
      unreadable tags (n + max 1 passed) (rest.drop (passed - 1))
termination_by cs.length
decreasing_by simp only [List.length_drop, List.length_cons]; omega

/-- Reads where the way is lost: a terminal, or text up to the next one. -/
def lexLost (tags : OpenTags) (cs : List Char) : Reading :=
  match lostTerminal? tags cs with
  | some r => r
  | none =>
    let blank := (cs.takeWhile isBlank).length
    let inside := cs.drop blank
    let passed := max 1 (falseStart inside)
    ⟨none, blank, unreadable tags passed (inside.drop passed), none, false⟩

/-- The next terminal. -/
def lex (s : Parsing.Sight OpenTags) : Reading :=
  let tags := s.memory.getD .empty
  match s.valid with
  | none => lexLost tags s.text
  | some valid =>
    let fits (t : Terminal) : Bool := t == .comment || valid.getD t.number false
    match (scan? fits tags s.text).filter fun x => s.mayBeEmpty || 0 < x.blank + x.length with
    | some x => x.reading 0
    | none =>
      match plain? fits s.text with
      | some (t, blank, length) =>
        if t == .endOfText && !fits .endOfText then lexLost tags s.text
        else ⟨some t.number, blank, length, none, false⟩
      | none => lexLost tags s.text

/-- The language of markup. -/
def language : Parsing.Language Kind OpenTags where
  table := table
  lex := lex
  isExtra := fun t => t == Terminal.comment.number
  isVisible := fun t => match Terminal.all[t]? with
    | some t => t.isVisible
    | none => false
  showsConstruct := fun c => match rules[c]? with
    | some (c, _) => c.kind?.isSome
    | none => false
  word := none
  isForgiving := true

end ElementLens.Markup
