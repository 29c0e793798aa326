/-
Tables.

A list is a table if no two of its elements have the same key. Then looking for a key and
finding it in the list is the same, and the element that is found is the only one:

* **`find?_eq_some_iff_of_nodup`** — elements with a key;
* **`lookup_eq_some_iff_of_nodup`** — pairs of a key and a value.

Taking out or changing the elements of one key is not seen by who looks for another:

* **`find?_filter_ne`** — elements that are taken out;
* **`find?_map_ite`** — elements that are changed and keep their key.
-/
import Mathlib.Data.List.Nodup

namespace ElementLens

variable {α β : Type} [DecidableEq β]

/-- The element with a key. -/
theorem find?_eq_some_iff_of_nodup {key : α → β} {l : List α} (h : (l.map key).Nodup) {k : β}
    {a : α} : (l.find? fun x => key x = k) = some a ↔ a ∈ l ∧ key a = k := by
  constructor
  · intro hfind
    exact ⟨List.mem_of_find?_eq_some hfind, by simpa using List.find?_some hfind⟩
  · rintro ⟨ha, rfl⟩
    cases hfind : l.find? fun x => key x = key a with
    | none => simpa using List.find?_eq_none.1 hfind a ha
    | some x =>
      have hx : key x = key a := by simpa using List.find?_some hfind
      rw [List.inj_on_of_nodup_map h (List.mem_of_find?_eq_some hfind) ha hx]

/-- The value under a key. -/
theorem lookup_eq_some_iff_of_nodup {l : List (β × α)} (h : (l.map Prod.fst).Nodup) {k : β}
    {v : α} : (l.find? fun e => e.1 = k).map Prod.snd = some v ↔ (k, v) ∈ l := by
  rw [Option.map_eq_some_iff]
  constructor
  · rintro ⟨e, he, rfl⟩
    obtain ⟨hmem, rfl⟩ := (find?_eq_some_iff_of_nodup h).1 he
    exact hmem
  · intro hmem
    exact ⟨_, (find?_eq_some_iff_of_nodup h).2 ⟨hmem, rfl⟩, rfl⟩

/-- Looking among the elements with other keys than one. -/
theorem find?_filter_ne (key : α → β) (l : List α) (j k : β) :
    (l.filter fun x => key x ≠ j).find? (fun x => key x = k)
      = if k = j then none else l.find? fun x => key x = k := by
  rw [List.find?_filter]
  split
  · next hk =>
    refine List.find?_eq_none.2 fun x _ => ?_
    simp [hk]
  · next hk =>
    congr 1
    funext x
    by_cases hx : key x = k <;> simp [hx, hk]

/-- Looking among the elements when those with one key are changed. -/
theorem find?_map_ite (key : α → β) {f : α → α} (hf : ∀ x, key (f x) = key x) (l : List α)
    (j k : β) :
    (l.map fun x => if key x = j then f x else x).find? (fun x => key x = k)
      = if k = j then (l.find? fun x => key x = k).map f else l.find? fun x => key x = k := by
  have hkey : (fun x => decide (key x = k)) ∘ (fun x => if key x = j then f x else x)
      = fun x => decide (key x = k) := by
    funext x
    by_cases hx : key x = j <;> simp [hx, hf]
  rw [List.find?_map, hkey]
  cases hfind : l.find? fun x => key x = k with
  | none => simp
  | some x =>
    obtain rfl : key x = k := by simpa using List.find?_some hfind
    split
    · next hx => simp [hx]
    · next hx => simp [hx]

end ElementLens
