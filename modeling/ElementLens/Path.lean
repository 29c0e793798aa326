/-
File paths.

A path is a sequence of bytes, which need not be the bytes of a text; what
matters of it is whether it begins with a slash and the list of its
components. Empty components and `.` are no components. Resolving a relative
specifier against a directory is lexical: `..` removes the component before
it, and is dropped at the root.

* **`Path.resolve`** — the normal form of a directory followed by a
  specifier;
* **`Path.parent?`** — the directory of a file; the root has none.
-/
import ElementLens.Text.Utf8

namespace ElementLens

/-- A file path. -/
structure Path where
  bytes : List UInt8
deriving DecidableEq, Repr, Inhabited

namespace Path

/-- The byte between components. -/
def slash : UInt8 := 47

/-- The component that means the same directory. -/
def here : List UInt8 := [46]

/-- The component that means the directory above. -/
def above : List UInt8 := [46, 46]

/-- The path that a text writes. -/
def ofText (s : String) : Path := ⟨Text.encodeUtf8 s.toList⟩

/-- The path as a text, for display. -/
def text (p : Path) : String := String.ofList (Text.decodeUtf8 p.bytes)

/-- The components of a path: the parts between slashes that are neither
empty nor `.`. -/
def components (p : Path) : List (List UInt8) :=
  (p.bytes.splitOn slash).filter fun part => part ≠ [] && part ≠ here

/-- Whether a path begins at the root. -/
def isAbsolute (p : Path) : Bool :=
  p.bytes.head? == some slash

/-- The path with the given components. -/
def ofComponents (absolute : Bool) (parts : List (List UInt8)) : Path :=
  ⟨(if absolute then [slash] else []) ++ [slash].intercalate parts⟩

/-- One step of lexical normalisation on the reversed list of components:
`..` removes the component before it. -/
def step (done : List (List UInt8)) (part : List UInt8) : List (List UInt8) :=
  if part = above then done.tail else part :: done

/-- Components without `..`. -/
def normalize (parts : List (List UInt8)) : List (List UInt8) :=
  (parts.foldl step []).reverse

/-- A specifier put after a directory; an absolute specifier stands alone. -/
def join (directory specifier : Path) : Path :=
  if specifier.isAbsolute || directory.bytes.isEmpty then specifier
  else ⟨directory.bytes ++ slash :: specifier.bytes⟩

/-- The path that a specifier names, seen from a directory. -/
def resolve (directory specifier : Path) : Path :=
  let path := join directory specifier
  ofComponents path.isAbsolute (normalize path.components)

/-- The directory that holds the last component of a path. -/
def parent? (p : Path) : Option Path :=
  match p.components with
  | [] => none
  | parts => some (ofComponents p.isAbsolute parts.dropLast)

end Path

end ElementLens
