/-
Files.

The files that imports may name: a path names a text, bytes that may or may
not be text, or a directory. Only text can be read.
-/
import ElementLens.Path

namespace ElementLens

/-- What a path names. -/
inductive FileContent where
  | text (content : String)
  | bytes (content : List UInt8)
  | directory
deriving DecidableEq, Repr

/-- Why a path cannot be read. -/
inductive ReadError where
  | missing | isDirectory | notText
deriving DecidableEq, Repr

/-- The wording of the reasons. -/
def ReadError.message : ReadError → String
  | .missing => "No such file or directory (os error 2)"
  | .isDirectory => "Is a directory (os error 21)"
  | .notText => "stream did not contain valid UTF-8"

/-- Files by path. No path occurs twice. -/
abbrev FileSystem := List (Path × FileContent)

namespace FileSystem

/-- The text of a file. -/
def read (fs : FileSystem) (path : Path) : Except ReadError String :=
  match fs.lookup path with
  | none => .error .missing
  | some .directory => .error .isDirectory
  | some (.text content) => .ok content
  | some (.bytes content) =>
    match String.fromUTF8? ⟨content.toArray⟩ with
    | some text => .ok text
    | none => .error .notText

/-- Removes a file. -/
def remove (fs : FileSystem) (path : Path) : FileSystem :=
  fs.filter fun f => f.1 ≠ path

/-- Sets what a path names. -/
def write (fs : FileSystem) (path : Path) (content : FileContent) : FileSystem :=
  (path, content) :: fs.remove path

end FileSystem

end ElementLens
