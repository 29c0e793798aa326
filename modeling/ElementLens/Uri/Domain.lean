/-
Domain names.

The name of a host is brought into ASCII: letters become lower case, some
characters that do not show are dropped, wide forms become plain ones, and a
label that still has characters outside ASCII is written in its ASCII form
behind `xn--`. A label that already begins so must be the form of such a
label.

Case is known for the Latin, Greek and Cyrillic alphabets; characters of
other scripts stand as they are.

* **`domainToAscii?`** — the ASCII form of a name.
-/
import ElementLens.Uri.Punycode

namespace ElementLens.Uri

/-- Whether a number lies in one of some ranges. -/
def inRanges (n : Nat) (ranges : List (Nat × Nat)) : Bool :=
  ranges.any fun r => r.1 ≤ n && n ≤ r.2

/-- Characters that do not show and are dropped. -/
def isDropped (n : Nat) : Bool :=
  inRanges n [(0xAD, 0xAD), (0x34F, 0x34F), (0x180B, 0x180D), (0x180F, 0x180F), (0x200B, 0x200B),
    (0x2060, 0x2060), (0x2064, 0x2064), (0xFE00, 0xFE0F), (0xFEFF, 0xFEFF), (0xE0100, 0xE01EF)]

/-- Blanks outside ASCII. -/
def isWideBlank (n : Nat) : Bool :=
  inRanges n [(0xA0, 0xA0), (0x2000, 0x200A), (0x202F, 0x202F), (0x205F, 0x205F),
    (0x3000, 0x3000)]

/-- Characters that no name may hold: controls, joiners without context,
marks of direction, and code points for private use or none. -/
def isBarred (n : Nat) : Bool :=
  inRanges n [(0x80, 0x9F), (0x61C, 0x61C), (0x180E, 0x180E), (0x200C, 0x200F), (0x2028, 0x202E),
    (0x2061, 0x2063), (0x2065, 0x206F), (0xD800, 0xF8FF), (0xFDD0, 0xFDEF), (0xFFF0, 0xFFFF),
    (0xE0000, 0xE00FF), (0xE01F0, 0x10FFFF)]

/-- Marks that combine with the character before them. -/
def isCombining (n : Nat) : Bool :=
  inRanges n [(0x300, 0x36F), (0x483, 0x489), (0x591, 0x5BD), (0x64B, 0x65F), (0x1AB0, 0x1AFF),
    (0x1DC0, 0x1DFF), (0x20D0, 0x20FF), (0x3099, 0x309A), (0xFE20, 0xFE2F)]

/-- The lower case of a letter. -/
def lowerCase (n : Nat) : Nat :=
  let isEven := n % 2 == 0
  if inRanges n [(0x41, 0x5A), (0xC0, 0xD6), (0xD8, 0xDE), (0x391, 0x3A1), (0x3A3, 0x3AB),
      (0x410, 0x42F)] then n + 0x20
  else if inRanges n [(0x400, 0x40F)] then n + 0x50
  else if inRanges n [(0x531, 0x556)] then n + 0x30
  else if n == 0x178 then 0xFF
  else if n == 0x386 then 0x3AC
  else if inRanges n [(0x388, 0x38A)] then n + 37
  else if n == 0x38C then 0x3CC
  else if inRanges n [(0x38E, 0x38F)] then n + 63
  else if isEven && inRanges n [(0x100, 0x12F), (0x132, 0x137), (0x14A, 0x177), (0x1DE, 0x1EF),
      (0x1F8, 0x21F), (0x222, 0x233), (0x370, 0x373), (0x3D8, 0x3EF), (0x460, 0x481),
      (0x48A, 0x4BF), (0x4D0, 0x52F), (0x1E00, 0x1E95), (0x1EA0, 0x1EFF)] then n + 1
  else if !isEven && inRanges n [(0x139, 0x148), (0x179, 0x17E), (0x1CD, 0x1DC), (0x4C1, 0x4CE)]
    then n + 1
  else n

/-- What a character becomes; `none` if no name may hold it. -/
def mapNameChar (c : Char) : Option (List Char) :=
  let n := c.toNat
  if isDropped n then some []
  else if isBarred n then none
  else if isWideBlank n then some [' ']
  else if n == 0x3002 || n == 0xFF61 then some ['.']
  else if 0xFF01 ≤ n && n ≤ 0xFF5E then some [Char.ofNat (lowerCase (n - 0xFEE0))]
  else if n == 0x130 then some ['i', Char.ofNat 0x307]
  else
    match n with
    | 0xAA => some ['a']
    | 0xB2 => some ['2']
    | 0xB3 => some ['3']
    | 0xB5 => some [Char.ofNat 0x3BC]
    | 0xB9 => some ['1']
    | 0xBA => some ['o']
    | 0xA8 | 0xAF | 0xB4 | 0xB8 => some [' ']
    | _ => some [Char.ofNat (lowerCase n)]

/-- Whether a label in lower case stands as it is. -/
def isSettled (label : List Char) : Bool :=
  label.all (fun c => mapNameChar c == some [c])
    && !(label.head?.map fun c => isCombining c.toNat).getD false

/-- What the ASCII form of a label begins with. -/
def formMark : List Char := "xn--".toList

/-- The ASCII form of a label. -/
def labelToAscii? (label : List Char) : Option (List Char) :=
  let isAscii (cs : List Char) : Bool := cs.all fun c => c.toNat < 0x80
  if formMark.isPrefixOf label then
    match Punycode.decode? (label.drop formMark.length) with
    | none => none
    | some name =>
      if isAscii label && !isAscii name && isSettled name
          && formMark ++ Punycode.encode name == label then some label
      else none
  else if isAscii label then some label
  else if isSettled label then some (formMark ++ Punycode.encode label)
  else none

/-- The ASCII form of a name. -/
def domainToAscii? (name : List Char) : Option (List Char) := do
  let mapped ← name.mapM mapNameChar
  let labels ← (mapped.flatten.splitOn '.').mapM labelToAscii?
  some (['.'].intercalate labels)

end ElementLens.Uri
