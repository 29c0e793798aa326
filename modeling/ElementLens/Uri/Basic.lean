/-
Resource identifiers.

A URI has a scheme, perhaps an authority (the part after `//`, with a host), a
path, a query and a fragment. The path is a list of segments, or one opaque text for
schemes such as `untitled:` that know no hierarchy. All parts are kept in
their encoded form, so two URIs are equal when their texts are.

* **`Uri.toPath?`** — the file path a URI names: it must have a hierarchy
  and no host other than the local one;
* **`Uri.ofPath?`** — the `file:` URI of an absolute path.
-/
import ElementLens.Path
import ElementLens.Uri.Percent

namespace ElementLens

namespace Uri

/-- The authority of a URI: user name and password in encoded form, the host,
which may be empty, and the port unless it is that of the scheme. -/
structure Authority where
  user : Option String
  host : String
  port : Option Nat
deriving DecidableEq, Repr, Inhabited

/-- The path of a URI, in encoded form. -/
inductive Route where
  | opaqueText (text : String)
  | segments (parts : List String)
deriving DecidableEq, Repr, Inhabited

end Uri

/-- A resource identifier in normal form. -/
structure Uri where
  scheme : String
  authority : Option Uri.Authority
  route : Uri.Route
  query : Option String
  fragment : Option String
deriving DecidableEq, Repr, Inhabited

namespace Uri

/-- The authority without a host. -/
def Authority.empty : Authority := ⟨none, "", none⟩

/-- The text of an authority. -/
def Authority.render (a : Authority) : String :=
  (a.user.map (· ++ "@")).getD "" ++ a.host ++ (a.port.map fun n => s!":{n}").getD ""

/-- The text of a path. -/
def Route.render : Route → String
  | .opaqueText text => text
  | .segments parts => String.join (parts.map ("/" ++ ·))

/-- The text of a URI. A path that would read as an authority is set off by
`/.`. -/
def render (u : Uri) : String :=
  let authority := match u.authority, u.route with
    | some a, _ => "//" ++ a.render
    | none, .segments ("" :: _ :: _) => "/."
    | none, _ => ""
  u.scheme ++ ":" ++ authority ++ u.route.render
    ++ (u.query.map ("?" ++ ·)).getD "" ++ (u.fragment.map ("#" ++ ·)).getD ""

/-- Whether a host is none or the local one. -/
def isLocal (u : Uri) : Bool :=
  match u.authority with
  | none => true
  | some a => a.host == "" || a.host == "localhost"

/-- Whether bytes end in a drive letter, which is a letter and a colon or a
bar, with something before it. -/
def endsInDrive (bytes : List UInt8) : Bool :=
  match bytes.reverse with
  | mark :: letter :: _ :: _ =>
    (mark == 58 || mark == 124) && letter < 0x80 && (Char.ofNat letter.toNat).isAlpha
  | _ => false

/-- The file path that a URI names, if it has a path of segments and is local.
A path that ends in a drive letter is given its slash. -/
def toPath? (u : Uri) : Option Path :=
  match u.isLocal, u.route with
  | true, .segments (part :: parts) =>
    let bytes := (part :: parts).flatMap fun part => Path.slash :: decodeBytes part.toList
    some ⟨if endsInDrive bytes then bytes ++ [Path.slash] else bytes⟩
  | _, _ => none

/-- The `file:` URI of an absolute path. -/
def ofPath? (path : Path) : Option Uri :=
  if path.isAbsolute then
    let parts := path.components.map fun part => String.ofList (encodeBytes componentSet part)
    some ⟨"file", some .empty, .segments (if parts = [] then [""] else parts), none, none⟩
  else none

/-- The path of a URI for display; the URI itself where it names no file. -/
def display (u : Uri) : String :=
  match u.toPath? with
  | some path => path.text
  | none => u.render

end Uri

end ElementLens
