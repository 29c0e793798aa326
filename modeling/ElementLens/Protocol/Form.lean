/-
Forms of JSON values.

A message of the protocol is valid when every part of it that the protocol
speaks of has the right form, also where nobody looks at the part. A form is
the set of values that have it. Most forms are records; an object may have
members that the form does not list, and an array must not.

* **`Form.record`** — a record, as an object or as an array;
* **`Form.members`** — a record that is only written as an object.
-/
import ElementLens.Component.Json

namespace ElementLens

/-- A form that a JSON value may have. -/
abbrev Form := Json → Bool

/-- What holds of a member that is missing: it must not be, it counts as
`null`, or a default stands for it, also at the end of an array. -/
inductive Presence where
  | required | optional | defaulted
deriving DecidableEq, Repr

/-- A member of a record. -/
structure Member where
  name : String
  presence : Presence
  form : Form

namespace Form

/-! ### Single values -/

/-- Any value. -/
def anything : Form := fun _ => true

/-- A truth value. -/
def flag : Form := fun j => j.bool?.isSome

/-- A text. -/
def text : Form := fun j => j.string?.isSome

/-- A natural number of 32 bits. -/
def word : Form := fun j => j.word?.isSome

/-- A whole number of 32 bits. -/
def signedWord : Form := fun j => j.signedWord?.isSome

/-- A number of any kind. -/
def number : Form
  | .int _ | .decimal _ => true
  | _ => false

/-- A URI. -/
def uri : Form := fun j => (Uri.ofJson? j).isSome

/-- A name out of a list. -/
def oneOf (choices : List String) : Form := fun j => (j.name? choices).isSome

/-! ### Combinations -/

/-- A value of a form, or `null`. -/
def orNull (f : Form) : Form
  | .null => true
  | j => f j

/-- A value of one of two forms. -/
def either (f g : Form) : Form := fun j => f j || g j

/-- An array of values of a form. -/
def list (f : Form) : Form := fun j => (j.array?.map fun items => items.all f).getD false

/-- An object whose members all have a form, under names that `isName`
accepts. -/
def table (isName : String → Bool) (f : Form) : Form := fun j =>
  (j.object?.map fun members => members.all fun (name, value) => isName name && f value).getD false

/-- Whether a member is as it should be, where `none` means that it is
missing. -/
def admits (m : Member) : Option Json → Bool
  | none => m.presence ≠ .required
  | some value => m.form value

/-- An object with the given members. -/
def members (ms : List Member) : Form := fun j =>
  j.object?.isSome && ms.all fun m => admits m (j.get? m.name)

/-- A record: an object, or an array with the members in order, of which only
those with a default may be missing. -/
def record (ms : List Member) : Form
  | .array items =>
    items.length ≤ ms.length && (ms.zip items).all (fun (m, value) => m.form value)
      && (ms.drop items.length).all fun m => m.presence = .defaulted
  | j => members ms j

end Form

namespace Member

/-- A member that must be there. -/
def needed (name : String) (f : Form) : Member := ⟨name, .required, f⟩

/-- A member that may be missing or `null`. -/
def maybe (name : String) (f : Form) : Member := ⟨name, .optional, f.orNull⟩

/-- Members that may be missing or `null`, all of one form. -/
def maybes (names : List String) (f : Form) : List Member := names.map (maybe · f)

end Member

namespace Form

/-! ### Forms that many messages share -/

/-- A record of flags, each of which may be missing. -/
def flags (names : List String) : Form := record (Member.maybes names flag)

/-- A position. -/
def position : Form := record [.needed "line" word, .needed "character" word]

/-- A range. -/
def range : Form := record [.needed "start" position, .needed "end" position]

/-- A document. -/
def document : Form := record [.needed "uri" uri]

/-- The mark of a progress report. -/
def token : Form := either signedWord text

/-- An array of texts. -/
def names : Form := list text

end Form

end ElementLens
