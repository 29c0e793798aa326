/-
Shapes: what a parser finds in a text.

A shape says which construct or terminal a stretch of text is and how it is
divided, but holds no text; it only knows how much text there is, and how
much of that are blanks in front. A shape may also be text that fits nowhere,
or a terminal that was supplied where the text lacks one. Such shapes have a
cost, and a shape costs at least what its parts cost.

* **`Shape.group`** — the shape of a construct or of text that was skipped;
* **`Shape.isBetter`** — which of two shapes of the same text to keep.
-/
import ElementLens.Text.Units
import ElementLens.Total

namespace ElementLens.Parsing

/-- An amount of text: characters, bytes and line feeds. -/
structure Extent where
  chars : Nat
  bytes : Nat
  lines : Nat
deriving DecidableEq, Repr, Inhabited

namespace Extent

/-- No text. -/
def zero : Extent := ⟨0, 0, 0⟩

instance : Add Extent where
  add a b := ⟨a.chars + b.chars, a.bytes + b.bytes, a.lines + b.lines⟩

/-- Adds one character. -/
def addChar (e : Extent) (c : Char) : Extent :=
  ⟨e.chars + 1, e.bytes + c.utf8Size, if c == '\n' then e.lines + 1 else e.lines⟩

/-- The extent of the first `n` characters of a text, added to another. -/
def addFirst (e : Extent) : Nat → List Char → Extent
  | 0, _ => e
  | _ + 1, [] => e
  | n + 1, c :: cs => addFirst (e.addChar c) n cs

/-- The extent of the first `n` characters of a text. -/
def ofFirst (n : Nat) (cs : List Char) : Extent :=
  addFirst zero n cs

end Extent

/-- What a shape is: a terminal, a construct spelled by a production, text
that fits nowhere, or a part of such text. -/
inductive Label where
  | terminal (i : Nat)
  | construct (i production : Nat)
  | error
  | skipped
deriving DecidableEq, Repr, Inhabited

/-- Numbers in the order in which labels are compared. -/
def Label.number (terminals : Nat) : Label → Nat
  | .terminal i => i
  | .construct i _ => terminals + i
  | .error => 0
  | .skipped => 0

/-- What is known of a shape. `blank` is the text in front of it; `memory` is
what a lexer remembers after a terminal, and `changed` says that this differs
from what it remembered before. Visible shapes are counted: directly below
(`children`) and all of them (`below`). -/
structure Summary (μ : Type) where
  blank : Extent
  size : Extent
  visible : Bool
  extra : Bool
  supplied : Bool
  cost : Nat
  children : Nat
  below : Nat
  rank : Int
  memory : Option μ
  changed : Bool

/-- The shape of a stretch of text. -/
inductive Shape (μ : Type) where
  | mk (label : Label) (summary : Summary μ) (parts : List (Shape μ))

/-- What mistakes cost. -/
structure Prices where
  recovery : Nat
  supplied : Nat
  skippedShape : Nat
  skippedLine : Nat
  skippedByte : Nat

/-- Prices in use: a recovery costs as much as five skipped shapes, so it is
better to skip a few than to lose one's way once more. -/
def prices : Prices := ⟨500, 110, 100, 30, 1⟩

namespace Shape

variable {μ : Type}

/-- What a shape is. -/
def label : Shape μ → Label
  | mk l _ _ => l

/-- What is known of a shape. -/
def summary : Shape μ → Summary μ
  | mk _ s _ => s

/-- The shapes directly below. -/
def parts : Shape μ → List (Shape μ)
  | mk _ _ ps => ps

/-- The number of shapes. -/
def count : Shape μ → Nat
  | mk _ _ ps => 1 + total (ps.map count)

/-- The text of a shape with the blanks in front. -/
def extent (s : Shape μ) : Extent := s.summary.blank + s.summary.size

/-- Whether a shape is text that fits nowhere. -/
def isError (s : Shape μ) : Bool := s.label == .error

/-- What a shape adds to the number of things found. -/
def weight (s : Shape μ) : Nat :=
  s.summary.below + (if s.summary.visible then 1 else 0)
    + (if s.label == .skipped then 1 else 0)

/-- The shape of a terminal, or of text that no terminal begins with. -/
def leaf (label : Label) (visible : Bool) (blank size : Extent) (memory : Option μ)
    (changed : Bool) : Shape μ :=
  mk label ⟨blank, size, visible, false, false, 0, 0, 0, 0, memory, changed⟩ []

/-- A terminal that the text lacks. -/
def missing (i : Nat) (visible : Bool) : Shape μ :=
  mk (.terminal i)
    ⟨.zero, .zero, visible, false, true, prices.supplied + prices.recovery, 0, 0, 0, none, false⟩ []

/-- The same shape, standing between constructs or not. -/
def setExtra (extra : Bool) : Shape μ → Shape μ
  | mk l s ps => mk l { s with extra } ps

/-- The same shape, with more rank. -/
def addRank (n : Int) : Shape μ → Shape μ
  | mk l s ps => mk l { s with rank := s.rank + n } ps

/-- What it costs that a shape is skipped: one price for each visible shape at
the top. -/
def skipCost (s : Shape μ) : Nat :=
  if s.summary.extra || (s.isError && s.parts.isEmpty) then 0
  else if s.summary.visible then prices.skippedShape
  else prices.skippedShape * s.summary.children

/-- Adds a shape to the right of a summary. -/
def addPart (skips : Bool) (acc : Summary μ) (s : Shape μ) : Summary μ :=
  { acc with
    size := acc.size + s.extent
    cost := acc.cost + (if s.label == .skipped then 0 else s.summary.cost)
      + (if skips then s.skipCost else 0)
    children := acc.children + (if s.summary.visible then 1
      else if s.parts.isEmpty then 0 else s.summary.children)
    below := acc.below + s.summary.below + (if s.summary.visible then 1 else 0)
    rank := acc.rank + s.summary.rank }

/-- The shape of some shapes side by side. The blanks in front of the first
are in front of the whole. -/
def group (label : Label) (visible : Bool) (parts : List (Shape μ)) : Shape μ :=
  let skips := label == .error || label == .skipped
  let start : Summary μ :=
    ⟨.zero, .zero, visible, false, false, 0, 0, 0, 0, none, false⟩
  let all := match parts with
    | [] => start
    | s :: rest =>
      let first := addPart skips start s
      rest.foldl (addPart skips) { first with blank := s.summary.blank, size := s.summary.size }
  let cost := if skips then
      all.cost + prices.recovery + prices.skippedByte * all.size.bytes
        + prices.skippedLine * all.size.lines
    else all.cost
  mk label { all with cost } parts

/-- Compares shapes pair by pair: by label, then by the number of parts, then
part by part. The bound is on the number of pairs. -/
def comparePairs (terminals : Nat) : Nat → List (Shape μ × Shape μ) → Ordering
  | 0, _ => .eq
  | _, [] => .eq
  | fuel + 1, (a, b) :: rest =>
    match compare (a.label.number terminals) (b.label.number terminals) with
    | .eq =>
      match compare a.parts.length b.parts.length with
      | .eq => comparePairs terminals fuel (a.parts.zip b.parts ++ rest)
      | o => o
    | o => o

/-- Whether the second of two shapes of the same text is the one to keep: it
costs less, or has the higher rank; of two shapes with mistakes the later one,
otherwise the one that comes first in the order of shapes. -/
def isBetter (terminals fuel : Nat) (a b : Shape μ) : Bool :=
  if b.summary.cost < a.summary.cost then true
  else if a.summary.cost < b.summary.cost then false
  else if a.summary.rank < b.summary.rank then true
  else if b.summary.rank < a.summary.rank then false
  else if 0 < a.summary.cost then true
  else comparePairs terminals fuel [(a, b)] == .gt

/-- Whether two shapes are interchangeable on top of the same stack. -/
def isEquivalent [DecidableEq μ] (a b : Shape μ) : Bool :=
  let sameLabel := match a.label, b.label with
    | .construct i _, .construct j _ => i == j
    | x, y => x == y
  sameLabel
    && ((0 < a.summary.cost && 0 < b.summary.cost)
      || (a.summary.blank.bytes == b.summary.blank.bytes
        && a.summary.size.bytes == b.summary.size.bytes
        && a.parts.length == b.parts.length
        && a.summary.extra == b.summary.extra
        && a.summary.memory == b.summary.memory))

/-- Divides shapes into those up to the last one that is no extra, and the
extras behind it. -/
def splitExtras (shapes : List (Shape μ)) : List (Shape μ) × List (Shape μ) :=
  let behind := (shapes.reverse.takeWhile fun s => s.summary.extra).reverse
  (shapes.take (shapes.length - behind.length), behind)

end Shape

end ElementLens.Parsing
