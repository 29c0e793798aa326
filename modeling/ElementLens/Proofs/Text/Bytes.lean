/-
The bytes of a text.

Offsets count bytes, so what stands at an offset is a byte. A character below 128 is one
byte, the same number; the bytes of all other characters are not below 128. So such a
character stands at an offset exactly if its byte does:

* **`length_encodeUtf8`** — a text has as many bytes as its characters count;
* **`getElem?_encodeUtf8_eq_some_iff`** — where a character below 128 stands;
* **`Holds.extract_encodeUtf8`** — the bytes of a part of a text.
-/
import ElementLens.Proofs.Text.Boundary
import ElementLens.Text.Utf8
import Mathlib.Data.List.Basic
import Mathlib.Tactic.SplitIfs

namespace ElementLens.Text

theorem encodeUtf8_cons (c : Char) (cs : List Char) :
    encodeUtf8 (c :: cs) = String.utf8EncodeChar c ++ encodeUtf8 cs :=
  List.flatMap_cons ..

theorem encodeUtf8_append (xs ys : List Char) :
    encodeUtf8 (xs ++ ys) = encodeUtf8 xs ++ encodeUtf8 ys :=
  List.flatMap_append ..

@[simp] theorem length_encodeUtf8 (cs : List Char) : (encodeUtf8 cs).length = bytes cs := by
  induction cs with
  | nil => rfl
  | cons c cs ih =>
    rw [encodeUtf8_cons, List.length_append, String.length_utf8EncodeChar, ih, bytes_cons]

/-! ### Characters of one byte -/

theorem utf8EncodeChar_of_lt {c : Char} (hc : c.toNat < 128) :
    String.utf8EncodeChar c = [UInt8.ofNat c.toNat] := by
  rw [String.utf8EncodeChar.eq_1, if_pos (show c.val.toNat ≤ 127 from Nat.le_of_lt_succ hc)]
  rfl

theorem utf8Size_of_lt {c : Char} (hc : c.toNat < 128) : c.utf8Size = 1 := by
  rw [← String.length_utf8EncodeChar, utf8EncodeChar_of_lt hc, List.length_singleton]

theorem le_of_mem_utf8EncodeChar {c : Char} (hc : 128 ≤ c.toNat) :
    ∀ b ∈ String.utf8EncodeChar c, 128 ≤ b.toNat := by
  have hlarge : ¬ c.val.toNat ≤ 127 := Nat.not_le.2 hc
  rw [String.utf8EncodeChar.eq_1, if_neg hlarge]
  -- two, three or four bytes, each with its highest bit set
  split_ifs <;> simp <;> omega

/-- A byte below 128 is the whole of its character. -/
theorem eq_of_getElem?_utf8EncodeChar {c : Char} {b : UInt8} {i : Nat} (hb : b.toNat < 128)
    (h : (String.utf8EncodeChar c)[i]? = some b) : c.toNat = b.toNat ∧ i = 0 := by
  have hc : c.toNat < 128 := by
    by_contra hc
    have := le_of_mem_utf8EncodeChar (Nat.not_lt.1 hc) b (List.mem_of_getElem? h)
    omega
  rw [utf8EncodeChar_of_lt hc, List.getElem?_singleton] at h
  split_ifs at h with hi
  rw [← Option.some.inj h, UInt8.toNat_ofNat']
  exact ⟨by omega, hi⟩

/-- A character below 128 stands at an offset exactly if its byte does. -/
theorem getElem?_encodeUtf8_eq_some_iff {cs : List Char} {c : Char} {b : UInt8} {i : Nat}
    (hc : c.toNat = b.toNat) (hb : b.toNat < 128) :
    (encodeUtf8 cs)[i]? = some b ↔ ∃ front rest, cs = front ++ c :: rest ∧ bytes front = i := by
  constructor
  · intro h
    induction cs generalizing i with
    | nil => simp [encodeUtf8] at h
    | cons d cs ih =>
      rw [encodeUtf8_cons, List.getElem?_append, String.length_utf8EncodeChar] at h
      split_ifs at h with hi
      · obtain ⟨hd, rfl⟩ := eq_of_getElem?_utf8EncodeChar hb h
        obtain rfl : d = c := Char.toNat_inj.1 (hd.trans hc.symm)
        exact ⟨[], cs, rfl, rfl⟩
      · obtain ⟨front, rest, rfl, hfront⟩ := ih h
        refine ⟨d :: front, rest, rfl, ?_⟩
        rw [bytes_cons, hfront]
        omega
  · rintro ⟨front, rest, rfl, rfl⟩
    rw [encodeUtf8_append, List.getElem?_append_right (by simp), length_encodeUtf8, Nat.sub_self,
      encodeUtf8_cons, utf8EncodeChar_of_lt (hc ▸ hb), hc, UInt8.ofNat_toNat]
    rfl

/-! ### Bytes between two offsets -/

/-- The bytes in a text that stands somewhere, also between offsets that are no
boundaries. -/
theorem Holds.extract_encodeUtf8 {cs word : List Char} {start stop a b : Nat}
    (h : Holds cs start stop word) (hab : a ≤ b) (hb : b ≤ bytes word) :
    (encodeUtf8 cs).extract (start + a) (start + b) = (encodeUtf8 word).extract a b := by
  obtain ⟨before, after, rfl, rfl, -⟩ := h
  rw [List.extract_eq_take_drop, List.extract_eq_take_drop, Nat.add_sub_add_left,
    List.append_assoc, encodeUtf8_append, encodeUtf8_append, ← length_encodeUtf8 before,
    List.drop_length_add_append, List.drop_append_of_le_length (by rw [length_encodeUtf8]; omega),
    List.take_append_of_le_length (by rw [List.length_drop, length_encodeUtf8]; omega)]

end ElementLens.Text
