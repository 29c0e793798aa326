/-
Reading a URI.

`Uri.parse?` brings a text into a normal form. The scheme is lower-cased;
blanks around the text and line breaks inside it are dropped. Schemes of the
web and `file:` always have an authority and a path of segments, in which `\`
counts as `/`; other schemes have an authority only after `//`, and a path of
segments only when it begins with a slash. Segments `.` and `..`, also in
encoded form, are resolved; a drive letter is never removed. A text without a
scheme is no URI.
-/
import ElementLens.Uri.Address
import ElementLens.Uri.Basic
import ElementLens.Uri.Domain

namespace ElementLens.Uri

/-- How the text after a scheme is read. -/
inductive SchemeClass where
  | file
  | special (port : Nat)
  | other
deriving DecidableEq, Repr

/-- The class of a scheme. -/
def schemeClass (scheme : String) : SchemeClass :=
  match scheme with
  | "file" => .file
  | "http" | "ws" => .special 80
  | "https" | "wss" => .special 443
  | "ftp" => .special 21
  | _ => .other

/-- Whether a character divides a path. -/
def SchemeClass.isSlash (cls : SchemeClass) (c : Char) : Bool :=
  c == '/' || (cls ≠ .other && c == '\\')

/-- The text without control characters and blanks around it, and without
tabs and line breaks inside. -/
def tidy (s : String) : List Char :=
  let outer := s.toList.dropWhile fun c => c.toNat ≤ 0x20
  let inner := (outer.reverse.dropWhile fun c => c.toNat ≤ 0x20).reverse
  inner.filter fun c => c ≠ '\t' && c ≠ '\n' && c ≠ '\r'

/-- The scheme, in lower case, and what follows its colon. -/
def splitScheme? (cs : List Char) : Option (String × List Char) :=
  match cs.span fun c => c.isAlphanum || c == '+' || c == '-' || c == '.' with
  | (first :: name, ':' :: rest) =>
    if first.isAlpha then some (String.ofList ((first :: name).map Char.toLower), rest) else none
  | _ => none

/-- Splits at the first occurrence of a character, which is dropped. -/
def splitAtFirst (c : Char) (cs : List Char) : List Char × Option (List Char) :=
  match cs.span (· ≠ c) with
  | (before, _ :: after) => (before, some after)
  | (before, []) => (before, none)

/-! ### Paths -/

/-- Whether a segment means the same directory. -/
def isDot (part : List Char) : Bool :=
  [".", "%2e"].contains (String.ofList (part.map Char.toLower))

/-- Whether a segment means the directory above. -/
def isDotDot (part : List Char) : Bool :=
  ["..", ".%2e", "%2e.", "%2e%2e"].contains (String.ofList (part.map Char.toLower))

/-- Whether a segment is a drive letter, which is a letter and a colon or a
bar. -/
def isDrive (part : List Char) : Bool :=
  match part with
  | [c, d] => c.isAlpha && (d == ':' || d == '|')
  | _ => false

/-- Whether a segment begins with a drive letter, up to a slash of either
sort. -/
def beginsWithDrive (part : List Char) : Bool :=
  isDrive (part.takeWhile (· ≠ '\\'))

/-- Segments that have been resolved, in reverse, and whether a drive letter
came first. -/
structure Resolved where
  done : List (List Char)
  drive : Bool

/-- Resolves a segment; the last one leaves an empty segment behind if it
names a directory. Where drives count, a drive letter that comes first is
written with a colon. -/
def Resolved.add (drives isLast : Bool) (r : Resolved) (part : List Char) : Resolved :=
  let close (done : List (List Char)) : List (List Char) := if isLast then [] :: done else done
  if isDotDot part then
    let stays := match r.done with
      | [] => true
      | last :: _ => beginsWithDrive last
    { r with done := close (if stays then r.done else r.done.tail) }
  else if isDot part then { r with done := close r.done }
  else if drives && r.done.isEmpty && isDrive part then ⟨[part.set 1 ':'], true⟩
  else { r with done := encode pathSet part :: r.done }

/-- Resolves segments from left to right. -/
def resolveSegments (drives : Bool) (r : Resolved) : List (List Char) → Resolved
  | [] => r
  | part :: parts => resolveSegments drives (r.add drives parts.isEmpty part) parts

/-- The segments of a path, given what follows its first slash. -/
def segmentsOf (cls : SchemeClass) (cs : List Char) : List String :=
  (resolveSegments false ⟨[], false⟩ (cs.splitOnP cls.isSlash)).done.reverse.map String.ofList

/-- The segments of the path of a `file:` URI, and whether a drive letter came
first, where drives count. Empty segments in front are dropped. -/
def fileSegmentsOf (drives : Bool) (cs : List Char) : List String × Bool :=
  let r := resolveSegments drives ⟨[], false⟩ (cs.splitOnP SchemeClass.file.isSlash)
  let trimmed := r.done.reverse.dropWhile (· = [])
  ((if trimmed = [] then [[]] else trimmed).map String.ofList, r.drive)

/-! ### Authorities -/

/-- Characters that no host may hold. -/
def forbiddenInHost (c : Char) : Bool :=
  c.toNat = 0 || " #/:<>?@[\\]^|".contains c

/-- Characters that no domain name may hold. -/
def forbiddenInDomain (c : Char) : Bool :=
  forbiddenInHost c || c.toNat < 0x20 || c.toNat = 0x7f || c == '%'

/-- The host that brackets enclose. -/
def parseBracketed? (cs : List Char) : Option String := do
  if cs.getLast? = some ']' then
    let address ← Address6.parse? (cs.drop 1).dropLast
    some ("[" ++ address.render ++ "]")
  else none

/-- The host of a scheme of the web, or of `file:`: a domain name or an
address. -/
def parseHost? (cs : List Char) : Option String :=
  if cs.head? = some '[' then parseBracketed? cs
  else do
    let name ← domainToAscii? (decode cs)
    if name.isEmpty || name.any forbiddenInDomain then none
    else if Address4.isMeant name then (Address4.parse? name).map Address4.render
    else some (String.ofList name)

/-- The host of any other scheme: kept as it is, in encoded form. -/
def parseOpaqueHost? (cs : List Char) : Option String :=
  if cs.head? = some '[' then parseBracketed? cs
  else if cs.any forbiddenInHost then none
  else some (String.ofList (encode controlSet cs))

/-- The length of the text of a host: up to a colon outside of brackets, or
the end of the authority. -/
def hostLength (cls : SchemeClass) (inside : Bool) : List Char → Nat
  | [] => 0
  | c :: cs =>
    if cls.isSlash c || (c == ':' && !inside) then 0
    else hostLength cls (c == '[' || (inside && c != ']')) cs + 1

/-- The port after a host, left out when it is the scheme's own, and what
follows. -/
def parsePort? (cls : SchemeClass) (cs : List Char) : Option (Option Nat × List Char) :=
  match cs with
  | ':' :: rest =>
    let digits := rest.takeWhile Char.isDigit
    let after := rest.drop digits.length
    let ends := match after with
      | [] => true
      | c :: _ => c == '/' || c == '\\'
    let n := digits.foldl (fun n c => n * 10 + (c.toNat - 48)) 0
    if !ends || 65535 < n then none
    else if digits.isEmpty || cls = .special n then some (none, after)
    else some (some n, after)
  | _ => some (none, cs)

/-- User name and password in encoded form; an empty password is left out. -/
def userOf (cs : List Char) : Option String :=
  let (name, password) := splitAtFirst ':' cs
  let part (cs : List Char) := String.ofList (encode userInfoSet cs)
  match name, password with
  | [], none | [], some [] => none
  | _, none | _, some [] => some (part name)
  | _, some p => some (part name ++ ":" ++ part p)

/-- The authority at the front of a text, and what follows it. `more` says
that a query or a fragment comes after the text. -/
def parseAuthority? (cls : SchemeClass) (more : Bool) (cs : List Char) :
    Option (Authority × List Char) := do
  let front := cs.takeWhile fun c => !cls.isSlash c
  let afterAt := (front.reverse.takeWhile (· ≠ '@')).length
  let hasUser := afterAt < front.length
  let userText := front.take (front.length - afterAt - 1)
  let rest := if hasUser then cs.drop (userText.length + 1) else cs
  let isEmptyHost := match rest with
    | [] => more
    | c :: _ => cls.isSlash c
  let user := if hasUser then userOf userText else none
  let n := hostLength cls false rest
  let host ← match cls with
    | .special _ => parseHost? (rest.take n)
    | _ => parseOpaqueHost? (rest.take n)
  let after := rest.drop n
  let (port, after) ← parsePort? cls after
  if hasUser && userText.isEmpty && isEmptyHost then none
  else if host = "" && (user.isSome || (rest.drop n).head? = some ':') then none
  else some (⟨user, host, port⟩, after)

/-! ### Hierarchies -/

/-- A `file:` URI without a host. A drive letter counts as one only if no
slash stands before the path. -/
def bareFile (cs : List Char) : Option Authority × Route :=
  let drives := !(cs.head?.map SchemeClass.file.isSlash).getD false
  (some .empty, .segments (fileSegmentsOf drives cs).1)

/-- Authority and path after `file:` and two slashes. -/
def parseFileHost? (rest : List Char) : Option (Option Authority × Route) :=
  let (host, after) := rest.span fun c => !SchemeClass.file.isSlash c
  if isDrive host then some (bareFile rest)
  else if host = [] then some (bareFile after)
  else do
    let h ← parseHost? host
    if h = "localhost" then some (bareFile after)
    else
      let (parts, drive) := fileSegmentsOf true (after.drop 1)
      some (some (if drive then .empty else ⟨none, h, none⟩), .segments parts)

/-- Authority and path after `file:`. -/
def parseFile? (body : List Char) : Option (Option Authority × Route) :=
  match body with
  | a :: b :: rest =>
    if SchemeClass.file.isSlash a && SchemeClass.file.isSlash b then parseFileHost? rest
    else some (bareFile body)
  | _ => some (bareFile body)

/-- Authority and path after a scheme of the web. -/
def parseSpecial? (cls : SchemeClass) (more : Bool) (body : List Char) :
    Option (Option Authority × Route) := do
  let (authority, after) ← parseAuthority? cls more (body.dropWhile cls.isSlash)
  some (some authority, .segments (segmentsOf cls (after.drop 1)))

/-- Authority and path after any other scheme. -/
def parseOther? (more : Bool) (body : List Char) : Option (Option Authority × Route) :=
  match body with
  | '/' :: '/' :: rest => do
    let (authority, after) ← parseAuthority? .other more rest
    some (some authority, .segments (match after with
      | [] => []
      | '/' :: cs => segmentsOf .other cs
      | cs => segmentsOf .other cs))
  | '/' :: cs => some (none, .segments (segmentsOf .other cs))
  | _ => some (none, .opaqueText (String.ofList (encode controlSet body)))

/-- Reads a URI and brings it into normal form. -/
def parse? (s : String) : Option Uri := do
  let (scheme, rest) ← splitScheme? (tidy s)
  let (beforeFragment, fragment) := splitAtFirst '#' rest
  let (body, query) := splitAtFirst '?' beforeFragment
  let cls := schemeClass scheme
  let more := query.isSome || fragment.isSome
  let (authority, route) ← match cls with
    | .file => parseFile? body
    | .special _ => parseSpecial? cls more body
    | .other => parseOther? more body
  let set := if cls = .other then querySet else specialQuerySet
  some {
    scheme, authority, route
    query := query.map fun q => String.ofList (encode set q)
    fragment := fragment.map fun f => String.ofList (encode fragmentSet f)
  }

end ElementLens.Uri
