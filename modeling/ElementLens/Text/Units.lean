/-
Sizes of text.

A character takes one to four bytes of UTF-8 and one or two UTF-16 code
units. Offsets into a text count bytes; columns of a position count code
units. This module holds the two measures and the cut of a text at a byte
offset:

* **`takeBytes_append_dropBytes`** — cutting loses nothing;
* **`bytes_append`**, **`units_append`** — both measures are additive.
-/

namespace ElementLens.Text

/-- The number of UTF-16 code units of a character: characters outside the
basic plane take a surrogate pair. -/
def unitsOf (c : Char) : Nat :=
  if c.toNat < 0x10000 then 1 else 2

/-- The number of UTF-8 bytes of a list of characters. -/
def bytes (cs : List Char) : Nat :=
  cs.foldl (fun n c => n + c.utf8Size) 0

/-- The number of UTF-16 code units of a list of characters. -/
def units (cs : List Char) : Nat :=
  cs.foldl (fun n c => n + unitsOf c) 0

/-- The length of a string in UTF-16 code units. -/
def utf16Length (s : String) : Nat :=
  units s.toList

/-! ### Cutting at a byte offset -/

/-- Moves characters that fit into `n` bytes from the list to the reversed
accumulator, stopping at the first that does not fit. -/
def cutBytes (n : Nat) (done : List Char) : List Char → List Char × List Char
  | [] => (done, [])
  | c :: cs =>
    if c.utf8Size ≤ n then cutBytes (n - c.utf8Size) (c :: done) cs else (done, c :: cs)

/-- The longest initial part of at most `n` bytes. -/
def takeBytes (n : Nat) (cs : List Char) : List Char :=
  (cutBytes n [] cs).1.reverse

/-- What is left after `takeBytes`. -/
def dropBytes (n : Nat) (cs : List Char) : List Char :=
  (cutBytes n [] cs).2

/-- The text with the part between two byte offsets replaced. -/
def spliceBytes (start stop : Nat) (new cs : List Char) : List Char :=
  takeBytes start cs ++ new ++ dropBytes stop cs

theorem cutBytes_append (n : Nat) (done cs : List Char) :
    (cutBytes n done cs).1.reverse ++ (cutBytes n done cs).2 = done.reverse ++ cs := by
  induction cs generalizing n done with
  | nil => simp [cutBytes]
  | cons c cs ih =>
    unfold cutBytes
    split
    · rw [ih]; simp
    · rfl

theorem takeBytes_append_dropBytes (n : Nat) (cs : List Char) :
    takeBytes n cs ++ dropBytes n cs = cs := by
  simpa [takeBytes, dropBytes] using cutBytes_append n [] cs

/-! ### Additivity -/

theorem foldl_add_measure (f : Char → Nat) (cs : List Char) (n : Nat) :
    cs.foldl (fun n c => n + f c) n = n + cs.foldl (fun n c => n + f c) 0 := by
  induction cs generalizing n with
  | nil => simp
  | cons c cs ih =>
    simp only [List.foldl_cons]
    rw [ih (n + f c), ih (0 + f c)]
    omega

@[simp] theorem bytes_nil : bytes [] = 0 := rfl

@[simp] theorem bytes_cons (c : Char) (cs : List Char) :
    bytes (c :: cs) = c.utf8Size + bytes cs := by
  unfold bytes
  rw [List.foldl_cons, foldl_add_measure]
  simp

theorem bytes_append (xs ys : List Char) : bytes (xs ++ ys) = bytes xs + bytes ys := by
  induction xs with
  | nil => simp
  | cons c xs ih => simp [ih, Nat.add_assoc]

@[simp] theorem units_nil : units [] = 0 := rfl

@[simp] theorem units_cons (c : Char) (cs : List Char) :
    units (c :: cs) = unitsOf c + units cs := by
  unfold units
  rw [List.foldl_cons, foldl_add_measure]
  simp

theorem units_append (xs ys : List Char) : units (xs ++ ys) = units xs + units ys := by
  induction xs with
  | nil => simp
  | cons c xs ih => simp [ih, Nat.add_assoc]

end ElementLens.Text
