/-
Positions and spans.

A position is a line and a column, both counted from zero, the column in
UTF-16 code units. Positions are ordered by line, then by column. A span is
a pair of positions; a position lies inside it when it lies strictly
between them, so neither end of a span is inside.
-/

namespace ElementLens

/-- A place in a text: a line and a column in UTF-16 code units. -/
structure Position where
  line : Nat
  character : Nat
deriving DecidableEq, Repr, Inhabited

namespace Position

/-- Positions are compared by line, and on one line by column. -/
def compare (a b : Position) : Ordering :=
  (Ord.compare a.line b.line).then (Ord.compare a.character b.character)

end Position

/-- A piece of text between two positions. -/
structure Span where
  start : Position
  stop : Position
deriving DecidableEq, Repr, Inhabited

namespace Span

/-- Whether a position lies strictly between the ends of the span. -/
def encloses (s : Span) (p : Position) : Bool :=
  s.start.compare p == .lt && s.stop.compare p == .gt

end Span

end ElementLens
