/-
Boundaries of characters.

A text can be cut at a byte offset only where a character ends. Such an offset
is a *boundary*: the length in bytes of an initial part. Both measures of text
grow strictly with the initial part, so an initial part is given by its length
in bytes, and also by its length in code units:

* **`eq_of_bytes_eq`**, **`eq_of_units_eq`** — initial parts of one text with
  equal lengths are equal;
* **`isGreatest_takeBytes`** — cutting at any offset means cutting at the last
  boundary that is not behind it;
* **`takeBytes_bytes`**, **`dropBytes_bytes`** — cutting at a boundary.
-/
import ElementLens.Text.Units
import Mathlib.Order.Bounds.Basic

namespace ElementLens.Text

/-- An offset at which a text can be cut: no character stands on both sides. -/
def IsBoundary (cs : List Char) (o : Nat) : Prop :=
  ∃ front, front <+: cs ∧ bytes front = o

/-- The text between two offsets is the given one, and both are boundaries. -/
def Holds (cs : List Char) (start stop : Nat) (word : List Char) : Prop :=
  ∃ before after, cs = before ++ word ++ after ∧ bytes before = start
    ∧ bytes before + bytes word = stop

/-! ### Sizes of characters -/

theorem unitsOf_pos (c : Char) : 0 < unitsOf c := by
  unfold unitsOf
  split <;> decide

theorem unitsOf_le (c : Char) : unitsOf c ≤ c.utf8Size := by
  by_cases h : c.toNat < 0x10000
  · rw [unitsOf, if_pos h]
    exact c.utf8Size_pos
  · have hlow : ∀ n : UInt32, n.toNat < 0x10000 → ¬ c.val ≤ n := by
      intro n hn hle
      have : c.toNat ≤ n.toNat := hle
      omega
    rw [unitsOf, if_neg h, Char.utf8Size, if_neg (hlow _ (by decide)),
      if_neg (hlow _ (by decide)), if_neg (hlow _ (by decide))]
    decide

theorem bytes_toList (s : String) : bytes s.toList = s.utf8ByteSize := by
  have h : ∀ cs : List Char, (String.ofList cs).utf8ByteSize = bytes cs := by
    intro cs
    induction cs with
    | nil => rfl
    | cons c cs ih =>
      rw [String.ofList_cons, String.utf8ByteSize_append, ih, bytes_cons]
      simp
  rw [← h, String.ofList_toList]

theorem bytes_eq_zero {cs : List Char} (h : bytes cs = 0) : cs = [] := by
  cases cs with
  | nil => rfl
  | cons c cs =>
    have hpos := c.utf8Size_pos
    rw [bytes_cons] at h
    omega

theorem units_le_bytes (cs : List Char) : units cs ≤ bytes cs := by
  induction cs with
  | nil => exact le_rfl
  | cons c cs ih =>
    rw [units_cons, bytes_cons]
    exact Nat.add_le_add (unitsOf_le c) ih

/-! ### Initial parts -/

/-- The sum of a positive measure of characters. `bytes` and `units` are the two
cases in use. -/
def weight (f : Char → Nat) (cs : List Char) : Nat :=
  cs.foldl (fun n c => n + f c) 0

section Weight

variable {f : Char → Nat} {xs ys cs : List Char}

theorem weight_append (f : Char → Nat) (xs ys : List Char) :
    weight f (xs ++ ys) = weight f xs + weight f ys := by
  unfold weight
  rw [List.foldl_append, foldl_add_measure]

theorem weight_cons (f : Char → Nat) (c : Char) (cs : List Char) :
    weight f (c :: cs) = f c + weight f cs := by
  unfold weight
  rw [List.foldl_cons, foldl_add_measure, Nat.zero_add]

theorem weight_le_of_isPrefix (f : Char → Nat) (h : xs <+: cs) : weight f xs ≤ weight f cs := by
  obtain ⟨ys, rfl⟩ := h
  rw [weight_append]
  exact Nat.le_add_right _ _

theorem weight_lt_of_isPrefix (hf : ∀ c, 0 < f c) (h : xs <+: cs) (hne : xs ≠ cs) :
    weight f xs < weight f cs := by
  obtain ⟨ys, rfl⟩ := h
  cases ys with
  | nil => simp at hne
  | cons c ys =>
    have hpos := hf c
    rw [weight_append, weight_cons]
    omega

/-- Of two initial parts of a text the one that weighs less begins the other. -/
theorem prefix_of_weight_le (hf : ∀ c, 0 < f c) (hx : xs <+: cs) (hy : ys <+: cs)
    (h : weight f xs ≤ weight f ys) : xs <+: ys := by
  rcases List.prefix_or_prefix_of_prefix hx hy with hxy | hyx
  · exact hxy
  · by_cases he : ys = xs
    · exact he ▸ List.prefix_refl ys
    · have := weight_lt_of_isPrefix hf hyx he
      omega

theorem eq_of_weight_eq (hf : ∀ c, 0 < f c) (hx : xs <+: cs) (hy : ys <+: cs)
    (h : weight f xs = weight f ys) : xs = ys := by
  by_contra hne
  have := weight_lt_of_isPrefix hf (prefix_of_weight_le hf hx hy h.le) hne
  omega

theorem bytes_le_of_isPrefix (h : xs <+: cs) : bytes xs ≤ bytes cs :=
  weight_le_of_isPrefix _ h

theorem prefix_of_bytes_le (hx : xs <+: cs) (hy : ys <+: cs) (h : bytes xs ≤ bytes ys) :
    xs <+: ys :=
  prefix_of_weight_le Char.utf8Size_pos hx hy h

theorem eq_of_bytes_eq (hx : xs <+: cs) (hy : ys <+: cs) (h : bytes xs = bytes ys) : xs = ys :=
  eq_of_weight_eq Char.utf8Size_pos hx hy h

theorem units_le_of_isPrefix (h : xs <+: cs) : units xs ≤ units cs :=
  weight_le_of_isPrefix _ h

theorem units_lt_of_isPrefix (h : xs <+: cs) (hne : xs ≠ cs) : units xs < units cs :=
  weight_lt_of_isPrefix unitsOf_pos h hne

theorem eq_of_units_eq (hx : xs <+: cs) (hy : ys <+: cs) (h : units xs = units ys) : xs = ys :=
  eq_of_weight_eq unitsOf_pos hx hy h

end Weight

theorem IsBoundary.le_bytes {cs : List Char} {o : Nat} (h : IsBoundary cs o) : o ≤ bytes cs := by
  obtain ⟨front, hfront, rfl⟩ := h
  exact bytes_le_of_isPrefix hfront

/-! ### Texts at a place -/

/-- Between a boundary and itself stands nothing. -/
theorem IsBoundary.holds_nil {cs : List Char} {o : Nat} (h : IsBoundary cs o) :
    Holds cs o o [] := by
  obtain ⟨front, ⟨back, rfl⟩, rfl⟩ := h
  exact ⟨front, back, by simp, rfl, rfl⟩

namespace Holds

variable {cs v w : List Char} {a b c i j : Nat}

theorem bytes_eq (h : Holds cs a b w) : a + bytes w = b := by
  obtain ⟨before, after, _, rfl, rfl⟩ := h
  rfl

theorem isBoundary (h : Holds cs a b w) : IsBoundary cs a ∧ IsBoundary cs b := by
  obtain ⟨before, after, rfl, rfl, rfl⟩ := h
  refine ⟨⟨before, ?_, rfl⟩, ⟨before ++ w, List.prefix_append _ _, bytes_append _ _⟩⟩
  exact (List.prefix_append before w).trans (List.prefix_append _ _)

theorem split (h : Holds cs a b (v ++ w)) :
    Holds cs a (a + bytes v) v ∧ Holds cs (a + bytes v) b w := by
  obtain ⟨before, after, rfl, rfl, rfl⟩ := h
  refine ⟨⟨before, w ++ after, by simp, rfl, rfl⟩, ⟨before ++ v, after, by simp, ?_, ?_⟩⟩
  · rw [bytes_append]
  · rw [bytes_append, bytes_append, Nat.add_assoc]

theorem append (hv : Holds cs a b v) (hw : Holds cs b c w) : Holds cs a c (v ++ w) := by
  obtain ⟨before, after, htext, rfl, rfl⟩ := hv
  obtain ⟨before', after', htext', hbytes, rfl⟩ := hw
  have hsame : before' = before ++ v := by
    refine eq_of_bytes_eq ⟨w ++ after', ?_⟩ ⟨after, htext.symm⟩ ?_
    · rw [htext', List.append_assoc]
    · rw [hbytes, bytes_append]
  refine ⟨before, after', ?_, rfl, ?_⟩
  · rw [htext', hsame]
    simp only [List.append_assoc]
  · rw [hbytes, bytes_append, Nat.add_assoc]

/-- A part of a text that stands somewhere. -/
theorem trans (h : Holds cs a b w) (hw : Holds w i j v) : Holds cs (a + i) (a + j) v := by
  obtain ⟨before, after, rfl, rfl, rfl⟩ := hw
  rw [List.append_assoc] at h
  obtain ⟨_, hrest⟩ := h.split
  have hv := hrest.split.1
  rwa [Nat.add_assoc] at hv

/-- A text that stands within another one is a part of it. -/
theorem within (hv : Holds cs a b v) (hw : Holds cs i j w) (hai : a ≤ i) (hjb : j ≤ b) :
    Holds v (i - a) (j - a) w := by
  obtain ⟨before, after, htext, rfl, rfl⟩ := hv
  obtain ⟨before', after', htext', rfl, rfl⟩ := hw
  have hcs : before ++ v <+: cs := ⟨after, htext.symm⟩
  have hcs' : before' ++ w <+: cs := ⟨after', htext'.symm⟩
  obtain ⟨x, rfl⟩ := prefix_of_bytes_le ((List.prefix_append before v).trans hcs)
    ((List.prefix_append before' w).trans hcs') hai
  obtain ⟨y, hy⟩ := prefix_of_bytes_le hcs' hcs (by rwa [bytes_append, bytes_append before v])
  rw [List.append_assoc, List.append_assoc] at hy
  have hv : v = x ++ w ++ y := by
    rw [List.append_assoc]
    exact (List.append_cancel_left hy).symm
  refine ⟨x, y, hv, ?_, ?_⟩
  · rw [bytes_append, Nat.add_sub_cancel_left]
  · rw [bytes_append]
    omega

end Holds

/-! ### Cutting -/

theorem cutBytes_done (n : Nat) (done cs : List Char) :
    cutBytes n done cs = ((cutBytes n [] cs).1 ++ done, (cutBytes n [] cs).2) := by
  induction cs generalizing n done with
  | nil => rfl
  | cons c cs ih =>
    unfold cutBytes
    split
    · rw [ih _ (c :: done), ih _ [c]]
      simp
    · rfl

theorem takeBytes_cons (n : Nat) (c : Char) (cs : List Char) :
    takeBytes n (c :: cs)
      = if c.utf8Size ≤ n then c :: takeBytes (n - c.utf8Size) cs else [] := by
  unfold takeBytes
  rw [cutBytes]
  split
  · rw [cutBytes_done]
    simp
  · rfl

theorem takeBytes_isPrefix (n : Nat) (cs : List Char) : takeBytes n cs <+: cs :=
  ⟨dropBytes n cs, takeBytes_append_dropBytes n cs⟩

theorem bytes_takeBytes_le (n : Nat) (cs : List Char) : bytes (takeBytes n cs) ≤ n := by
  induction cs generalizing n with
  | nil => exact Nat.zero_le n
  | cons c cs ih =>
    rw [takeBytes_cons]
    split
    · have := ih (n - c.utf8Size)
      rw [bytes_cons]
      omega
    · exact Nat.zero_le n

/-- An initial part that fits is part of what is cut off. -/
theorem prefix_takeBytes {front cs : List Char} {n : Nat} (h : front <+: cs)
    (hn : bytes front ≤ n) : front <+: takeBytes n cs := by
  obtain ⟨rest, rfl⟩ := h
  induction front generalizing n with
  | nil => exact List.nil_prefix
  | cons c front ih =>
    rw [bytes_cons] at hn
    rw [List.cons_append, takeBytes_cons, if_pos (by omega)]
    exact (List.prefix_cons_inj c).2 (ih (by omega))

theorem takeBytes_bytes {front cs : List Char} (h : front <+: cs) :
    takeBytes (bytes front) cs = front := by
  refine (eq_of_bytes_eq h (takeBytes_isPrefix _ cs) ?_).symm
  exact Nat.le_antisymm (bytes_le_of_isPrefix (prefix_takeBytes h le_rfl))
    (bytes_takeBytes_le _ cs)

theorem dropBytes_bytes (front rest : List Char) :
    dropBytes (bytes front) (front ++ rest) = rest := by
  have h := takeBytes_append_dropBytes (bytes front) (front ++ rest)
  rw [takeBytes_bytes (List.prefix_append front rest)] at h
  exact List.append_cancel_left h

theorem takeBytes_append (front rest : List Char) (n : Nat) :
    takeBytes (bytes front + n) (front ++ rest) = front ++ takeBytes n rest := by
  induction front with
  | nil => simp
  | cons c front ih =>
    rw [List.cons_append, takeBytes_cons, bytes_cons, if_pos (by omega)]
    rw [show c.utf8Size + bytes front + n - c.utf8Size = bytes front + n by omega, ih]
    rfl

/-- What lies behind the cut does not matter. -/
theorem takeBytes_append_left {front rest : List Char} {n : Nat} (h : n < bytes front) :
    takeBytes n (front ++ rest) = takeBytes n front := by
  have hle := bytes_takeBytes_le n (front ++ rest)
  have hfront : takeBytes n (front ++ rest) <+: front :=
    prefix_of_bytes_le (takeBytes_isPrefix _ _) (List.prefix_append _ _) (by omega)
  have hthere : takeBytes n (front ++ rest) <+: takeBytes n front := prefix_takeBytes hfront hle
  have hback : takeBytes n front <+: takeBytes n (front ++ rest) :=
    prefix_takeBytes ((takeBytes_isPrefix n front).trans (List.prefix_append _ _))
      (bytes_takeBytes_le n front)
  exact hthere.eq_of_length (Nat.le_antisymm hthere.length_le hback.length_le)

/-- Cutting behind the end means cutting at the end. -/
theorem takeBytes_min (n : Nat) (cs : List Char) :
    takeBytes (min n (bytes cs)) cs = takeBytes n cs := by
  rcases Nat.le_total n (bytes cs) with h | h
  · rw [Nat.min_eq_left h]
  · have hall : cs <+: takeBytes n cs := prefix_takeBytes (List.prefix_refl cs) h
    rw [Nat.min_eq_right h, takeBytes_bytes (List.prefix_refl cs)]
    exact hall.eq_of_length (Nat.le_antisymm hall.length_le (takeBytes_isPrefix n cs).length_le)

theorem isGreatest_takeBytes (cs : List Char) (o : Nat) :
    IsGreatest {b | IsBoundary cs b ∧ b ≤ o} (bytes (takeBytes o cs)) := by
  constructor
  · exact ⟨⟨_, takeBytes_isPrefix o cs, rfl⟩, bytes_takeBytes_le o cs⟩
  · rintro b ⟨⟨front, hfront, rfl⟩, hb⟩
    exact bytes_le_of_isPrefix (prefix_takeBytes hfront hb)

end ElementLens.Text
