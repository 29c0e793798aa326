/-
Hexadecimal digits.
-/

namespace ElementLens.Text

/-- The hexadecimal digit, in upper case, of a number below 16. -/
def hexDigit (n : Nat) : Char :=
  if n < 10 then Char.ofNat (48 + n) else Char.ofNat (55 + n)

/-- The value of a hexadecimal digit. -/
def hexValue (c : Char) : Option Nat :=
  if '0' ≤ c ∧ c ≤ '9' then some (c.toNat - 48)
  else if 'a' ≤ c ∧ c ≤ 'f' then some (c.toNat - 87)
  else if 'A' ≤ c ∧ c ≤ 'F' then some (c.toNat - 55)
  else none

/-- Whether a character is a hexadecimal digit. -/
def isHex (c : Char) : Bool :=
  (hexValue c).isSome

/-- The number that the first `count` characters write in hexadecimal, if all
of them are digits. `acc` is the value of the digits before. -/
def hexNumber (acc : Nat) : Nat → List Char → Option Nat
  | 0, _ => some acc
  | _ + 1, [] => none
  | count + 1, c :: cs =>
    match hexValue c with
    | none => none
    | some v => hexNumber (16 * acc + v) count cs

end ElementLens.Text
