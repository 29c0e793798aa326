/-
Numbers in hexadecimal.

* **`hexNumber_append`** — a text that begins with digits is read as the number that
  they write;
* **`exists_digits_of_hexNumber`** — a text that is read as a number begins with digits;
* **`numberFrom_lt`** — how large a number of so many digits is.
-/
import ElementLens.Text.Hex
import Mathlib.Algebra.Group.Nat.Defs

namespace ElementLens.Text

/-- The number that some digits write behind those of another number. -/
def numberFrom (n : Nat) (digits : List Char) : Nat :=
  digits.foldl (fun n c => 16 * n + (hexValue c).getD 0) n

/-- The number that some digits write. -/
def number (digits : List Char) : Nat := numberFrom 0 digits

theorem numberFrom_cons (n : Nat) (c : Char) (digits : List Char) :
    numberFrom n (c :: digits) = numberFrom (16 * n + (hexValue c).getD 0) digits := rfl

theorem le_numberFrom (n : Nat) (digits : List Char) : n ≤ numberFrom n digits := by
  induction digits generalizing n with
  | nil => exact Nat.le_refl n
  | cons c digits ih =>
    have := ih (16 * n + (hexValue c).getD 0)
    rw [numberFrom_cons]
    omega

theorem isHex_eq_true_iff {c : Char} : isHex c = true ↔ ∃ v, hexValue c = some v :=
  Option.isSome_iff_exists

theorem hexValue_lt {c : Char} {v : Nat} (h : hexValue c = some v) : v < 16 := by
  unfold hexValue at h
  simp only [Char.le_def, UInt32.le_iff_toNat_le] at h
  have hdigit : ('9' : Char).val.toNat = 57 := rfl
  have hsmall : ('f' : Char).val.toNat = 102 := rfl
  have hcapital : ('F' : Char).val.toNat = 70 := rfl
  have hc : c.toNat = c.val.toNat := rfl
  split at h
  · have := Option.some.inj h
    omega
  · split at h
    · have := Option.some.inj h
      omega
    · split at h
      · have := Option.some.inj h
        omega
      · exact absurd h (by simp)

theorem numberFrom_lt {digits : List Char} (h : ∀ c ∈ digits, isHex c = true) (n : Nat) :
    numberFrom n digits < (n + 1) * 16 ^ digits.length := by
  induction digits generalizing n with
  | nil => simp [numberFrom]
  | cons c digits ih =>
    obtain ⟨v, hv⟩ := isHex_eq_true_iff.1 (h c List.mem_cons_self)
    have hlt := hexValue_lt hv
    have hrest := ih (fun d hd => h d (List.mem_cons_of_mem _ hd)) (16 * n + v)
    rw [numberFrom_cons, hv, Option.getD_some, List.length_cons, Nat.pow_succ']
    calc numberFrom (16 * n + v) digits
        < (16 * n + v + 1) * 16 ^ digits.length := hrest
      _ ≤ (16 * (n + 1)) * 16 ^ digits.length := Nat.mul_le_mul_right _ (by omega)
      _ = (n + 1) * (16 * 16 ^ digits.length) := by rw [Nat.mul_comm 16, Nat.mul_assoc]

theorem hexNumber_append {digits : List Char} (h : ∀ c ∈ digits, isHex c = true) (n : Nat)
    (rest : List Char) :
    hexNumber n digits.length (digits ++ rest) = some (numberFrom n digits) := by
  induction digits generalizing n with
  | nil => rfl
  | cons c digits ih =>
    obtain ⟨v, hv⟩ := isHex_eq_true_iff.1 (h c List.mem_cons_self)
    rw [List.length_cons, List.cons_append, hexNumber, hv, numberFrom_cons, hv]
    exact ih (fun d hd => h d (List.mem_cons_of_mem _ hd)) _

theorem exists_digits_of_hexNumber {n count v : Nat} {cs : List Char}
    (h : hexNumber n count cs = some v) :
    ∃ digits rest, cs = digits ++ rest ∧ digits.length = count
      ∧ (∀ c ∈ digits, isHex c = true) ∧ v = numberFrom n digits := by
  induction count generalizing n cs with
  | zero => exact ⟨[], cs, rfl, rfl, by simp, (Option.some.inj h).symm⟩
  | succ count ih =>
    cases cs with
    | nil => exact absurd h (by simp [hexNumber])
    | cons c cs =>
      rw [hexNumber] at h
      cases hc : hexValue c with
      | none => exact absurd h (by simp [hc])
      | some d =>
        simp only [hc] at h
        obtain ⟨digits, rest, rfl, rfl, hall, rfl⟩ := ih h
        refine ⟨c :: digits, rest, rfl, rfl, ?_, by rw [numberFrom_cons, hc]; rfl⟩
        intro e he
        rcases List.mem_cons.1 he with rfl | he
        · exact isHex_eq_true_iff.2 ⟨d, hc⟩
        · exact hall e he

end ElementLens.Text
