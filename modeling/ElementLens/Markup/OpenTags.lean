/-
The elements that are open.

While markup is read, the lexer remembers the names of the open elements, the
innermost one first. Its memory is limited: names are kept as long as they fit
in a fixed number of bytes, and of a name that does not fit only remains that
there was one. Such a name equals no other. Long names are cut short.

* **`OpenTags.push`** — opens an element;
* **`OpenTags.closes`** — whether an end tag belongs to the innermost element;
* **`OpenTags.hasSort`** — whether an element of the sort of a name is open.
-/
import ElementLens.Markup.Name

namespace ElementLens.Markup

/-- The name of an open element: one that is known, the name of a custom
element, or one that did not fit. -/
inductive OpenName where
  | known (name : String)
  | custom (name : String)
  | forgotten
deriving DecidableEq, Repr

namespace OpenName

/-- The name of an element. -/
def ofName (name : String) : OpenName :=
  if isKnown name then known name else custom name

/-- Whether two names are of one sort: the same known name, or both custom. -/
def isSameSort : OpenName → OpenName → Bool
  | known a, known b => a == b
  | custom _, custom _ => true
  | _, _ => false

/-- The name of a known element. -/
def known? : OpenName → Option String
  | known name => some name
  | _ => none

/-- The longest name that is kept, in bytes. -/
def maxLength : Nat := 255

/-- The part of a name that is kept. -/
def shortened : OpenName → OpenName
  | custom name => custom (String.ofList (name.toList.take maxLength))
  | n => n

/-- The room that a name takes. -/
def room : OpenName → Nat
  | custom name => 2 + name.length
  | known _ | forgotten => 1

end OpenName

/-- The open elements: those whose names found room, the innermost one first,
each with the room that it and those around it take, and how many are open
inside of them for which nothing was left. -/
structure OpenTags where
  inner : Nat
  entries : List (OpenName × Nat)
deriving DecidableEq, Repr

namespace OpenTags

/-- The room for all names. -/
def capacity : Nat := 1024

/-- The room that is taken when nothing is open. -/
def overhead : Nat := 4

/-- How many elements are remembered. -/
def maxDepth : Nat := 65535

/-- Nothing is open. -/
def empty : OpenTags := ⟨0, []⟩

/-- Whether nothing is open. -/
def isEmpty (t : OpenTags) : Bool := t.inner == 0 && t.entries.isEmpty

/-- The number of open elements. -/
def depth (t : OpenTags) : Nat := t.inner + t.entries.length

/-- The innermost open element. -/
def innermost? (t : OpenTags) : Option OpenName :=
  if t.inner = 0 then t.entries.head?.map Prod.fst else some .forgotten

/-- The room taken so far. -/
def taken (t : OpenTags) : Nat :=
  match t.entries with
  | [] => overhead
  | (_, n) :: _ => n

/-- Opens an element. A name that does not fit still takes the least room. -/
def push (t : OpenTags) (name : OpenName) : OpenTags :=
  if t.inner = 0 && t.taken + OpenName.forgotten.room < capacity then
    let name := name.shortened
    let kept := if t.taken + name.room < capacity then name else .forgotten
    { t with entries := (kept, t.taken + kept.room) :: t.entries }
  else if maxDepth ≤ t.depth then t
  else { t with inner := t.inner + 1 }

/-- Closes the innermost element. -/
def pop (t : OpenTags) : OpenTags :=
  match t.inner with
  | 0 => { t with entries := t.entries.tail }
  | n + 1 => { t with inner := n }

/-- Whether an end tag with a name ends the innermost element. -/
def closes (t : OpenTags) (name : OpenName) : Bool :=
  name != .forgotten && t.innermost? == some name

/-- Whether an element of the sort of a name is open. -/
def hasSort (t : OpenTags) (name : OpenName) : Bool :=
  t.entries.any fun e => e.1.isSameSort name

/-- Whether the innermost element has no content. -/
def isVoid (t : OpenTags) : Bool :=
  match t.innermost?.bind OpenName.known? with
  | some name => Markup.isVoid name
  | none => false

/-- Whether the innermost element ends before a start tag with a name, or at
the end of the text (`atEnd`), where the name is empty. -/
def endsBefore (t : OpenTags) (name : String) (atEnd : Bool) : Bool :=
  match t.innermost?.bind OpenName.known? with
  | some parent => !canContain parent name || (atEnd && isOutermost parent)
  | none => false

theorem pop_push (t : OpenTags) (name : OpenName) (h : t.depth < maxDepth) :
    (t.push name).pop = t := by
  unfold push
  split
  · rename_i room
    obtain ⟨inner, entries⟩ := t
    simp only [Bool.and_eq_true, decide_eq_true_eq] at room
    obtain ⟨rfl, _⟩ := room
    simp [pop]
  · simp [pop, Nat.not_le.2 h]

end OpenTags

end ElementLens.Markup
