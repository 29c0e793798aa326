/-
Imports of modules.

Only imports by a relative path of a file that ends in `.js` are followed: one
or more dots and a slash at the beginning, `.js` at the end, no line feed
between. The path is resolved against the directory of the importing file
without looking at the file system.
-/
import ElementLens.Component.Definition

namespace ElementLens

/-- Whether a specifier is a relative path of a script. -/
def isRelativeScript (specifier : String) : Bool :=
  let cs := specifier.toList
  match cs.dropWhile (· == '.') with
  | '/' :: rest =>
    cs.head? == some '.' && !rest.contains '\n' && ".js".toList.isSuffixOf rest
  | _ => false

/-- The text between the quotes of a string. -/
def betweenQuotes (text : String) : String :=
  String.ofList (text.toList.drop 1).dropLast

namespace ImportEdge

/-- The edge from a file to what a specifier names. -/
def ofSpecifier? (importer : Path) (specifier : String) : Option ImportEdge := do
  if isRelativeScript specifier then
    let directory ← importer.parent?
    let filePath := directory.resolve (.ofText specifier)
    some ⟨← Uri.ofPath? filePath, filePath⟩
  else none

/-- The edge of an import statement. -/
def ofStatement? (importer : Path) (n : ScriptNode) : Option ImportEdge := do
  let source ← n.child? (.construct .string)
  ofSpecifier? importer (betweenQuotes source.text)

end ImportEdge

end ElementLens
