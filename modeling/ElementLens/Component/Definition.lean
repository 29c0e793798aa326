/-
Definitions of elements.

A class declares the properties of its element in a static method named
`properties`: the object that its first return statement gives has one entry
per property, and the value of an entry may be an object of options. Comments
count as parts of a statement, so a comment in front of the object hides it.

* **`OptionEntry.apply`** — what one option says about a property; `readOnly` adds
  up, the last word counts for the others;
* **`Element.ofClass`** — the element that a class declaration defines.
-/
import ElementLens.Component.Record
import ElementLens.Document
import ElementLens.Script.Parse

namespace ElementLens

open Syntax (Node)

/-- A node of a script. -/
abbrev ScriptNode := Node Script.Kind

namespace ScriptNode

/-- The parts of a construct; punctuation and blanks are none. -/
def parts (n : ScriptNode) : List ScriptNode :=
  Node.children n |>.filter fun c => c.kind.isNamed

/-- The tokens and constructs directly below, blanks and comments aside. -/
def tokens (n : ScriptNode) : List ScriptNode :=
  Node.children n |>.filter fun c => !c.kind.isTrivia

/-- The first child of a kind. -/
def child? (n : ScriptNode) (k : Script.Kind) : Option ScriptNode :=
  Node.children n |>.find? fun c => c.kind == k

/-- Where a node stands in a document. -/
def span (n : ScriptNode) (d : Document) : Span :=
  d.spanOf n.start n.stop

/-- Removes quotes at both ends of a text. -/
def unquote (text : String) : String :=
  let isQuote := fun c => c == '"' || c == '\''
  String.ofList ((text.toList.dropWhile isQuote).reverse.dropWhile isQuote).reverse

/-- The text of a name in front of a member: words and strings have one,
numbers and computed names do not. -/
def keyText? (n : ScriptNode) : Option String :=
  match n.kind with
  | .propertyName | .terminal .name => some n.text
  | .construct .string => some (unquote n.text)
  | _ => none

/-- The name of a method: the last thing before its parameters. -/
def methodName? (n : ScriptNode) : Option ScriptNode :=
  (tokens n |>.takeWhile fun c => c.kind != .construct .parameters).getLast?

/-- The key and the value of an entry of the form `key: value`. -/
def keyValue? (n : ScriptNode) : Option (ScriptNode × ScriptNode) :=
  match tokens n with
  | key :: _ :: value :: _ => some (key, value)
  | _ => none

/-- The object that an expression is. Parentheses around it do not matter. -/
def unwrap (n : ScriptNode) : Option ScriptNode :=
  match n.kind with
  | .construct .object => some n
  | .construct .parenthesized =>
    match _hinner : (parts n).head? with
    | none => none
    | some inner => unwrap inner
  | _ => none
termination_by n.tree.count
decreasing_by
  exact Node.count_lt_of_child (List.mem_filter.1 (List.mem_of_head? _hinner)).1

/-- The object that the first return statement of a method gives. -/
def returnedObject? (method : ScriptNode) : Option ScriptNode := do
  let body ← method.child? (.construct .block)
  let statement ← (parts body).find? fun s => s.kind == .construct .returnStatement
  let value ← (parts statement).head?
  unwrap value

/-- Whether a member of a class is static. -/
def isStatic (member : ScriptNode) : Bool :=
  (member.child? (.terminal (.literal "static"))).isSome
    || (member.child? (.terminal .staticGet)).isSome

/-- Whether a member of a class is the static method `properties`. -/
def declaresProperties (member : ScriptNode) : Bool :=
  member.kind == .construct .method && member.isStatic
    && (methodName? member).bind keyText? == some "properties"

end ScriptNode

/-! ### Options -/

/-- What an option is set to, as far as it matters. -/
inductive OptionValue where
  | name (text : String)
  | yes
  | other
deriving DecidableEq, Repr

/-- An entry of an object of options: `name: value`, a method, or a name
alone. Only the first has a value. -/
structure OptionEntry where
  name : String
  value : Option OptionValue
deriving DecidableEq, Repr

namespace OptionValue

/-- The value that a node stands for. -/
def ofNode (n : ScriptNode) : OptionValue :=
  match n.kind with
  | .terminal .name => .name n.text
  | .terminal (.literal "true") => .yes
  | _ => .other

end OptionValue

namespace OptionEntry

/-- The option that an entry of an object sets, if it has a name. -/
def ofNode? (n : ScriptNode) : Option OptionEntry :=
  match n.kind with
  | .construct .pair => do
    let (key, value) ← n.keyValue?
    some ⟨← key.keyText?, some (.ofNode value)⟩
  | .construct .method => do
    let name ← n.methodName?
    some ⟨← name.keyText?, none⟩
  | .shorthand => some ⟨n.text, none⟩
  | _ => none

/-- What an option says about a property. -/
def apply (p : Property) (o : OptionEntry) : Property :=
  match o.name with
  | "type" =>
    { p with typeName := match o.value with | some (.name text) => some text | _ => none }
  | "internal" => { p with internal := o.value == some .yes }
  | "compute" => { p with readOnly := true }
  | "readOnly" => { p with readOnly := p.readOnly || o.value == some .yes }
  | _ => p

end OptionEntry

namespace Property

/-- A property of which only the name is known. -/
def named (key : String) (span : Span) : Property := ⟨key, span, none, false, false⟩

/-- The property that an entry declares. -/
def ofEntry? (d : Document) (entry : ScriptNode) : Option Property := do
  let (key, value) ← if entry.kind == .construct .pair then entry.keyValue? else none
  let property := named (← key.keyText?) (key.span d)
  if value.kind == .construct .object then
    some (((ScriptNode.parts value).filterMap OptionEntry.ofNode?).foldl OptionEntry.apply property)
  else some property

end Property

namespace Element

/-- The properties that the body of a class declares. -/
def propertiesOf (d : Document) (body : ScriptNode) : List Property :=
  match (body.parts.find? ScriptNode.declaresProperties).bind ScriptNode.returnedObject? with
  | none => []
  | some object => object.parts.filterMap (Property.ofEntry? d)

/-- The element that a class declaration with the given name defines. -/
def ofClass (d : Document) (declaration name : ScriptNode) : Element where
  constructorName := name.text
  nameSpan := name.span d
  properties := ((declaration.child? (.construct .classBody)).map (propertiesOf d)).getD []

end Element

end ElementLens
