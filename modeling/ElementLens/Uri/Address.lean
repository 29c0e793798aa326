/-
Addresses in the place of a host.

An IPv6 address is eight groups of hexadecimal digits; one run of zero groups
may be left out, and the last two groups may be written as an IPv4 address. In
normal form the longest run of zero groups, if it has two or more, is left
out. An IPv4 address is up to four numbers in decimal, octal or hexadecimal
notation, the last of which fills the bytes that are left.

* **`Address6.parse?`**, **`Address6.render`** — IPv6;
* **`Address4.parse?`**, **`Address4.render`** — IPv4.
-/
import ElementLens.Text.Hex

namespace ElementLens.Uri

/-- The number that digits write in a base; `none` if one of them is no digit
of the base. -/
def numeral? (base : Nat) (cs : List Char) : Option Nat :=
  cs.foldlM (fun n c =>
    match Text.hexValue c with
    | some d => if d < base then some (n * base + d) else none
    | none => none) 0

/-! ### IPv4 -/

/-- An IPv4 address as a number. -/
structure Address4 where
  value : Nat
deriving DecidableEq, Repr

namespace Address4

/-- One of the numbers of an address: hexadecimal after `0x`, octal after a
zero, otherwise decimal. -/
def part? (cs : List Char) : Option Nat :=
  match cs with
  | [] => none
  | '0' :: 'x' :: ds | '0' :: 'X' :: ds => numeral? 16 ds
  | '0' :: d :: ds => numeral? 8 (d :: ds)
  | _ => numeral? 10 cs

/-- The parts of a host between dots; a dot at the end does not count. -/
def parts (host : List Char) : List (List Char) :=
  let all := host.splitOn '.'
  if all.getLast? == some [] then all.dropLast else all

/-- Whether a host is to be read as an address: its last part is a number. -/
def isMeant (host : List Char) : Bool :=
  match (parts host).getLast? with
  | none => false
  | some last => (!last.isEmpty && last.all Char.isDigit) || (part? last).isSome

/-- How many addresses there are, and how many of them have the first one,
two, three or four numbers in common. -/
def units : List Nat := [0x100000000, 0x1000000, 0x10000, 0x100, 1]

/-- The address that a host writes. -/
def parse? (host : List Char) : Option Address4 := do
  let parts := parts host
  if 4 < parts.length then none
  else
    let numbers ← parts.mapM part?
    let last ← numbers.getLast?
    let front := numbers.dropLast
    let unit := units.getD front.length 1
    if unit ≤ last || front.any (255 < ·) then none
    else
      let high := front.foldl (fun n b => n * 256 + b) 0
      some ⟨high * unit + last⟩

/-- The address as four decimal numbers. -/
def render (a : Address4) : String :=
  ".".intercalate ((units.drop 1).map fun unit => toString (a.value / unit % 256))

end Address4

/-! ### IPv6 -/

/-- An IPv6 address as eight groups of 16 bits. -/
structure Address6 where
  groups : List Nat
deriving DecidableEq, Repr

namespace Address6

/-- One of the decimal numbers at the end: below 256, without leading zeros. -/
def decimalByte? (cs : List Char) : Option Nat :=
  match cs with
  | [] => none
  | ['0'] => some 0
  | '0' :: _ => none
  | _ => (numeral? 10 cs).filter (· < 256)

/-- The two groups of an IPv4 address at the end. -/
def tail? (cs : List Char) : Option (Nat × Nat) := do
  match ← (cs.splitOn '.').mapM decimalByte? with
  | [a, b, c, d] => some (a * 256 + b, c * 256 + d)
  | _ => none

/-- Reads groups; `done` holds those so far in reverse and `gap` the number of
groups before the run that was left out, which counts as one group at
least. -/
def readGroups (done : List Nat) (gap : Option Nat) (cs : List Char) :
    Option (List Nat × Option Nat) :=
  match cs with
  | [] => some (done.reverse, gap)
  | ':' :: rest =>
    if done.length = 8 || gap.isSome then none
    else readGroups (0 :: done) (some (done.length + 1)) rest
  | c :: rest =>
    if done.length = 8 then none
    else
      let digits := ((c :: rest).take 4).takeWhile Text.isHex
      match _h : (c :: rest).drop digits.length with
      | [] => do some ((← numeral? 16 digits) :: done |>.reverse, gap)
      | '.' :: _ =>
        if digits.isEmpty || 6 < done.length then none
        else do
          let (a, b) ← tail? (c :: rest)
          some ((b :: a :: done).reverse, gap)
      | ':' :: more =>
        if more.isEmpty || digits.isEmpty then none
        else
          match numeral? 16 digits with
          | none => none
          | some n => readGroups (n :: done) gap more
      | _ => none
termination_by cs.length
decreasing_by
  · simp
  · have shorter := congrArg List.length _h
    simp only [List.length_drop, List.length_cons] at shorter
    simp only [List.length_cons]
    omega

/-- The address that a text writes, without the brackets around it. -/
def parse? (cs : List Char) : Option Address6 := do
  let (groups, gap) ← match cs with
    | ':' :: ':' :: rest => readGroups [0] (some 1) rest
    | ':' :: _ => none
    | [] | [_] => none
    | _ => readGroups [] none cs
  match gap with
  | some n =>
    some ⟨groups.take n ++ List.replicate (8 - groups.length) 0 ++ groups.drop n⟩
  | none => if groups.length = 8 then some ⟨groups⟩ else none

/-- The length of the run of zero groups at the front. -/
def zeroRun (groups : List Nat) : Nat := (groups.takeWhile (· == 0)).length

/-- The place and the length of the first longest run of zero groups from the
`i`-th group on. -/
def longestRun (i : Nat) : List Nat → Nat × Nat
  | [] => (i, 0)
  | g :: gs =>
    let here := zeroRun (g :: gs)
    let later := longestRun (i + 1) gs
    if later.2 ≤ here then (i, here) else later

/-- A number in hexadecimal notation, in lower case. -/
def hexText (n : Nat) : String := String.ofList (Nat.toDigits 16 n)

/-- The address in normal form. -/
def render (a : Address6) : String :=
  let join (gs : List Nat) : String := ":".intercalate (gs.map hexText)
  let (place, length) := longestRun 0 a.groups
  if length < 2 then join a.groups
  else join (a.groups.take place) ++ "::" ++ join (a.groups.drop (place + length))

end Address6

end ElementLens.Uri
