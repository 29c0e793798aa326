/-
JSON values.

Messages between an editor and the server, and the settings an editor sends,
are JSON values of any shape. `Json` is that shape. Numbers keep the two
kinds apart that matter here: an integer is a number written without
fraction and exponent, every other number is `decimal`.

A record, that is a value with a fixed list of members, is written in one of
two ways: as an object, or as an array that has all the members in order.

* **`Json.record?`** — a record as an object, whichever way it is written;
* **`Json.member?`**, **`Json.optional?`** — the members of a record.
-/

namespace ElementLens

/-- A JSON value. Members of an object are in the order of the text, at most
one for each name. -/
inductive Json where
  | null
  | bool (value : Bool)
  | int (value : Int)
  | decimal (text : String)
  | string (value : String)
  | array (items : List Json)
  | object (members : List (String × Json))
deriving Inhabited

namespace Json

/-- The member of an object with the given name. -/
def get? (name : String) : Json → Option Json
  | .object members => members.lookup name
  | _ => none

/-- The text of a string value. -/
def string? : Json → Option String
  | .string s => some s
  | _ => none

/-- The value of an integer. -/
def int? : Json → Option Int
  | .int i => some i
  | _ => none

/-- The value of an integer that is not negative and below `bound`. -/
def natBelow? (bound : Nat) : Json → Option Nat
  | .int i => if 0 ≤ i ∧ i.toNat < bound then some i.toNat else none
  | _ => none

/-- The items of an array. -/
def array? : Json → Option (List Json)
  | .array items => some items
  | _ => none

/-- The members of an object. -/
def object? : Json → Option (List (String × Json))
  | .object members => some members
  | _ => none

/-- A truth value. -/
def bool? : Json → Option Bool
  | .bool b => some b
  | _ => none

/-- The number of values of a word of 32 bits. -/
def wordBound : Nat := 4294967296

/-- A natural number of 32 bits. -/
def word? : Json → Option Nat := natBelow? wordBound

/-- A whole number of 32 bits, with a sign. -/
def signedWord? (j : Json) : Option Int := do
  let i ← j.int?
  if -2147483648 ≤ i ∧ i < 2147483648 then some i else none

/-- A name out of a list, by itself or as the one member of an object without
a value. -/
def name? (choices : List String) : Json → Option String
  | .string s | .object [(s, .null)] => if choices.contains s then some s else none
  | _ => none

/-- An array of values of one kind. -/
def list? {α : Type} (read : Json → Option α) (j : Json) : Option (List α) := do
  (← j.array?).mapM read

/-! ### Records -/

/-- A record with members of the given names, as an object. -/
def record? (names : List String) : Json → Option Json
  | .object members => some (.object members)
  | .array items =>
    if items.length = names.length then some (.object (names.zip items)) else none
  | _ => none

/-- A member that must be there. -/
def member? {α : Type} (read : Json → Option α) (name : String) (j : Json) : Option α :=
  (j.get? name).bind read

/-- A member that may be missing or `null`. -/
def optional? {α : Type} (read : Json → Option α) (name : String) (j : Json) :
    Option (Option α) :=
  match j.get? name with
  | none | some .null => some none
  | some value => (read value).map some

end Json

end ElementLens
