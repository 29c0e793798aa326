/-
Percent encoding.

A character that may not stand in a part of a URI is written as the bytes of
its UTF-8 form, each as `%` and two hexadecimal digits. Which ASCII
characters may not stand is a set that depends on the part; characters
outside ASCII never may. Decoding turns every well-formed triplet back into
its byte and leaves all else alone.
-/
import ElementLens.Text.Hex
import ElementLens.Text.Utf8

namespace ElementLens.Uri

/-- A set of ASCII characters to be encoded in some part of a URI. -/
abbrev EncodeSet := Char → Bool

/-- Control characters: the set for the path of a URI without a hierarchy. -/
def controlSet : EncodeSet := fun c => c.toNat < 0x20 || c.toNat = 0x7f

/-- The set for fragments. -/
def fragmentSet : EncodeSet := fun c => controlSet c || " \"<>`".contains c

/-- The set for paths. -/
def pathSet : EncodeSet := fun c => fragmentSet c || "#?\x7b\x7d".contains c

/-- The set for one component of a file path. -/
def componentSet : EncodeSet := fun c => pathSet c || "/%\\".contains c

/-- The set for queries. -/
def querySet : EncodeSet := fun c => controlSet c || " \"#<>".contains c

/-- The set for queries of the schemes of the web. -/
def specialQuerySet : EncodeSet := fun c => querySet c || c == '\''

/-- The set for the user name and password before a host. -/
def userInfoSet : EncodeSet := fun c => pathSet c || "/:;=@[\\]^|".contains c

/-- A byte as `%` and two hexadecimal digits. -/
def encodeByte (b : UInt8) : List Char :=
  ['%', Text.hexDigit (b.toNat / 16), Text.hexDigit (b.toNat % 16)]

/-- A byte as it stands in a part of a URI. -/
def encodeIn (set : EncodeSet) (b : UInt8) : List Char :=
  let c := Char.ofNat b.toNat
  if set c || 0x80 ≤ b.toNat then encodeByte b else [c]

/-- Bytes as they stand in a part of a URI. -/
def encodeBytes (set : EncodeSet) (bytes : List UInt8) : List Char :=
  bytes.flatMap (encodeIn set)

/-- A text as it stands in a part of a URI. -/
def encode (set : EncodeSet) (s : List Char) : List Char :=
  encodeBytes set (Text.encodeUtf8 s)

/-- The bytes of a text with every triplet `%XX` replaced by its byte. -/
def decodeBytes : List Char → List UInt8
  | [] => []
  | '%' :: a :: b :: cs =>
    match Text.hexValue a, Text.hexValue b with
    | some x, some y => UInt8.ofNat (16 * x + y) :: decodeBytes cs
    | _, _ => String.utf8EncodeChar '%' ++ decodeBytes (a :: b :: cs)
  | c :: cs => String.utf8EncodeChar c ++ decodeBytes cs

/-- The text of a part of a URI. -/
def decode (s : List Char) : List Char :=
  Text.decodeUtf8 (decodeBytes s)

end ElementLens.Uri
