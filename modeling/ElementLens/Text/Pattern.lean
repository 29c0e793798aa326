/-
Patterns of text.

A pattern is a row of pieces: fixed texts, and groups of one or more characters of
a class. A group takes as many characters as it can, but gives some of them back
where what follows it would not match otherwise. A text is searched from left to
right: the first place where the pattern matches counts, and the search goes on
behind what was matched there.

* **`Pattern.match?`** — the pattern at the front of a text;
* **`Pattern.findAll`** — all that a search finds.
-/

namespace ElementLens.Text

/-- A piece of a pattern. -/
inductive Piece where
  | literal (text : List Char)
  | group (allowed : Char → Bool)

/-- A row of pieces. -/
abbrev Pattern := List Piece

/-- What the groups of a pattern have taken, in order. -/
abbrev Captures := List (List Char)

namespace Pattern

/-- One or more characters of a class, as many as `next` lets be taken, and what
`next` finds behind them. `taken` was taken before and is in reverse, `best` is the
best found so far. -/
def stretch {α : Type} (allowed : Char → Bool) (next : List Char → Option α)
    (best : Option (List Char × α)) (taken : List Char) : List Char → Option (List Char × α)
  | [] => best
  | c :: cs =>
    if allowed c then
      let best := match next cs with
        | none => best
        | some found => some ((c :: taken).reverse, found)
      stretch allowed next best (c :: taken) cs
    else best

/-- The pattern at the front of a text: what its groups have taken, and the rest of
the text. -/
def match? : Pattern → List Char → Option (Captures × List Char)
  | [], cs => some ([], cs)
  | .literal text :: pieces, cs => (text.isPrefixOf? cs).bind (match? pieces)
  | .group allowed :: pieces, cs =>
    (stretch allowed (match? pieces) none [] cs).map fun (group, captures, rest) =>
      (group :: captures, rest)

/-- All that a search finds from here on, after what is in `done`, which is in
reverse. A match of no characters does not hold the search up. -/
def findFrom (pattern : Pattern) (done : List Captures) : List Char → List Captures
  | [] => done.reverse
  | c :: cs =>
    match match? pattern (c :: cs) with
    | none => findFrom pattern done cs
    | some (captures, rest) =>
      if rest.length ≤ cs.length then findFrom pattern (captures :: done) rest
      else findFrom pattern (captures :: done) cs
termination_by cs => cs.length
decreasing_by all_goals simp only [List.length_cons]; omega

/-- All that a search of a text finds, in order. -/
def findAll (pattern : Pattern) (cs : List Char) : List Captures :=
  findFrom pattern [] cs

end Pattern

end ElementLens.Text
