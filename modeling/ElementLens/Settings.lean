/-
Settings of a user.

There is one setting, the greatest number of problems to report for a
document. It comes from the editor as a JSON value, which may have any shape:
what cannot be read gives the default.
-/
import ElementLens.Json

namespace ElementLens

/-- Settings for a document. -/
structure Settings where
  maxProblems : Nat
deriving DecidableEq, Repr

namespace Settings

/-- The section of the settings of an editor that belongs here. -/
def sectionName : String := "XElement"

/-- The settings where nothing else is said. -/
def standard : Settings := ⟨100⟩

/-- The number of values that a setting can take. -/
def bound : Nat := 18446744073709551616

/-- Reads settings: an object, or an array of the one value. -/
def read? : Json → Option Settings
  | .object members =>
    match (Json.object members).get? "maxNumberOfProblems" with
    | none => some standard
    | some value => (value.natBelow? bound).map Settings.mk
  | .array [value] => (value.natBelow? bound).map Settings.mk
  | _ => none

/-- The settings that a value stands for. -/
def ofValue (value : Json) : Settings :=
  (read? value).getD standard

/-- The settings in a notice of changed settings, which has a section for
each program. -/
def ofChange (change : Json) : Settings :=
  ((change.get? sectionName).map ofValue).getD standard

end Settings

end ElementLens
