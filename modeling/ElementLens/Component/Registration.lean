/-
Registrations of elements.

A registration is the text `customElements.define('tag', Class)`, letter for
letter, wherever it stands. A text is searched for them from left to right; where
a class is registered more than once, the last one counts.
-/
import ElementLens.Text.Pattern

namespace ElementLens

/-- A class and the tag name it is registered under. -/
structure Registration where
  constructorName : String
  tagName : String
deriving DecidableEq, Repr

namespace Registration

/-- Characters of a registered tag name. -/
def isTagChar (c : Char) : Bool :=
  ('a' ≤ c && c ≤ 'z') || c.isDigit || c == '-'

/-- What stands before the tag name. -/
def opening : List Char := "customElements.define('".toList

/-- What stands between the tag name and the class. -/
def separator : List Char := "', ".toList

/-- What a registration looks like. The groups are the tag name and the class. -/
def pattern : Text.Pattern :=
  [.literal opening, .group isTagChar, .literal separator, .group Char.isAlphanum,
    .literal [')']]

/-- The registration that the groups have taken. -/
def ofCaptures? : Text.Captures → Option Registration
  | [tagName, constructorName] => some ⟨String.ofList constructorName, String.ofList tagName⟩
  | _ => none

/-- All registrations of a text, in order. -/
def scan (text : String) : List Registration :=
  (pattern.findAll text.toList).filterMap ofCaptures?

/-- The tag name that a class is registered under. -/
def tagOf? (rs : List Registration) (constructorName : String) : Option String :=
  (rs.reverse.find? fun r => r.constructorName == constructorName).map (·.tagName)

end Registration

end ElementLens
