/-
The line table of a text.

A line ends at a line feed, at a carriage return, or at a carriage return
followed by a line feed; the last line has no end. The table keeps for every
line the byte offset where it starts, its characters and its line end, and
answers the two questions an editor asks: the position of a byte offset, and
the byte offset of a position.

* **`Lines.positionAt`** — offsets past the end count as the end, offsets
  inside a character count as the start of that character;
* **`Lines.offsetAt`** — columns past the end of a line count as its end
  (before the line end), lines past the last as the end of the text.
-/
import ElementLens.Bisection
import ElementLens.Text.Units
import ElementLens.Text.Position

namespace ElementLens.Text

/-- One line: where it starts, its characters, and the characters of its
line end (none for the last line). -/
structure Line where
  start : Nat
  body : List Char
  ending : List Char
deriving Repr, Inhabited

/-- The line table of a text, in order. -/
abbrev Lines := Array Line

namespace Lines

/-- Walks over a text. `start` is the offset of the current line, `size` the
number of bytes of its characters read so far, `body` those characters in
reverse, `done` the finished lines. -/
def collect (start size : Nat) (body : List Char) (done : Lines) : List Char → Lines
  | [] => done.push ⟨start, body.reverse, []⟩
  | '\r' :: '\n' :: cs =>
    collect (start + size + 2) 0 [] (done.push ⟨start, body.reverse, ['\r', '\n']⟩) cs
  | '\r' :: cs => collect (start + size + 1) 0 [] (done.push ⟨start, body.reverse, ['\r']⟩) cs
  | '\n' :: cs => collect (start + size + 1) 0 [] (done.push ⟨start, body.reverse, ['\n']⟩) cs
  | c :: cs => collect start (size + c.utf8Size) (c :: body) done cs

/-- The line table of a text. -/
def ofChars (cs : List Char) : Lines :=
  collect 0 0 [] #[] cs

/-- The byte offsets at which the lines start. -/
def starts (t : Lines) : Array Nat :=
  t.map Line.start

/-- Whether a line starts at or before `offset`. -/
def startsUpTo (t : Lines) (offset index : Nat) : Bool :=
  match t[index]? with
  | none => false
  | some line => line.start ≤ offset

/-- The index of the last line that starts at or before `offset`. -/
def lineOf (t : Lines) (offset : Nat) : Nat :=
  bisect (t.startsUpTo offset) 0 t.size - 1

/-- The code units of the characters that fit into the first `n` bytes. -/
def unitsWithin (n acc : Nat) : List Char → Nat
  | [] => acc
  | c :: cs => if c.utf8Size ≤ n then unitsWithin (n - c.utf8Size) (acc + unitsOf c) cs else acc

/-- The bytes of the characters before the first one at which at least `n`
code units have passed. -/
def bytesBefore (n acc : Nat) : List Char → Nat
  | [] => acc
  | c :: cs => if n = 0 then acc else bytesBefore (n - unitsOf c) (acc + c.utf8Size) cs

/-- The position of a byte offset. -/
def positionAt (t : Lines) (offset : Nat) : Position :=
  let index := t.lineOf offset
  match t[index]? with
  | none => ⟨index, 0⟩
  | some line => ⟨index, unitsWithin (offset - line.start) 0 (line.body ++ line.ending)⟩

/-- The length of the text in bytes. -/
def size (t : Lines) : Nat :=
  match t.back? with
  | none => 0
  | some line => line.start + bytes line.body + bytes line.ending

/-- The byte offset of a position. -/
def offsetAt (t : Lines) (p : Position) : Nat :=
  match t[p.line]? with
  | none => t.size
  | some line => bytesBefore p.character line.start line.body

end Lines

end ElementLens.Text
