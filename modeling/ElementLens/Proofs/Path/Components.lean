/-
The components of a path.

A path that was resolved is spelled by its components (`Path.Spelled`): none of
them is empty, `.` or `..`, and nothing else stands in it but the slashes between
them. So such a path is known from its components.

* **`components_ofComponents`** — putting components together and taking the path
  apart again;
* **`spelled_resolve`** — what a specifier names is spelled by its components.
-/
import ElementLens.Path
import Mathlib.Data.List.Basic

namespace ElementLens

namespace Path

/-- A part of a path that names something in a directory. -/
structure Names (part : List UInt8) : Prop where
  nonempty : part ≠ []
  not_here : part ≠ here
  not_above : part ≠ above
  no_slash : slash ∉ part

/-- A path is what its components spell. -/
structure Spelled (p : Path) : Prop where
  eq : p = ofComponents p.isAbsolute p.components
  names : ∀ part ∈ p.components, Names part

variable {p q : Path} {part : List UInt8} {parts done : List (List UInt8)} {absolute : Bool}

/-! ### Taking a path apart -/

theorem notMem_of_mem_splitOn {α : Type} [BEq α] [LawfulBEq α] {a : α} {xs part : List α}
    (h : part ∈ xs.splitOn a) : a ∉ part := by
  induction xs generalizing part with
  | nil =>
    rw [List.splitOn_nil, List.mem_singleton] at h
    rw [h]
    exact List.not_mem_nil
  | cons x xs ih =>
    rw [List.splitOn_cons_eq_if_modifyHead] at h
    split at h
    · rcases List.mem_cons.1 h with rfl | h
      · exact List.not_mem_nil
      · exact ih h
    · next hx =>
      obtain ⟨first, rest, hparts⟩ := List.exists_cons_of_ne_nil (List.splitOn_ne_nil a xs)
      rw [hparts, List.modifyHead_cons] at h
      rw [hparts] at ih
      rcases List.mem_cons.1 h with rfl | h
      · rintro hmem
        rcases List.mem_cons.1 hmem with rfl | hmem
        · exact hx BEq.rfl
        · exact ih List.mem_cons_self hmem
      · exact ih (List.mem_cons_of_mem _ h)

theorem mem_components_iff : part ∈ p.components
    ↔ part ∈ p.bytes.splitOn slash ∧ part ≠ [] ∧ part ≠ here := by
  simp [components, List.mem_filter]

/-- A slash parts components. -/
theorem components_append_slash (front back : List UInt8) :
    (⟨front ++ slash :: back⟩ : Path).components
      = (⟨front⟩ : Path).components ++ (⟨back⟩ : Path).components := by
  unfold components
  rw [List.splitOn_append_cons_self, List.filter_append]

/-- The components of parts with a slash before each of them. -/
theorem components_flatMap (front : List UInt8) (parts : List (List UInt8)) :
    (⟨front ++ parts.flatMap (slash :: ·)⟩ : Path).components
      = (⟨front⟩ : Path).components ++ parts.flatMap fun part => (⟨part⟩ : Path).components := by
  induction parts generalizing front with
  | nil => simp
  | cons part parts ih =>
    rw [List.flatMap_cons, List.cons_append, components_append_slash, ih, List.flatMap_cons]

/-- A part without a slash is one component, if it is any. -/
theorem components_part {part : List UInt8} (hnonempty : part ≠ []) (hhere : part ≠ here)
    (hslash : slash ∉ part) : (⟨part⟩ : Path).components = [part] := by
  unfold components
  rw [List.splitOn_eq_singleton hslash]
  simp [hnonempty, hhere]

/-- The components that are put together are those that the path has. -/
theorem components_ofComponents (absolute : Bool) (h : ∀ part ∈ parts, Names part) :
    (ofComponents absolute parts).components = parts := by
  have hkept : parts.filter (fun part => part ≠ [] && part ≠ here) = parts :=
    List.filter_eq_self.2 fun part hpart => by
      simp [(h part hpart).nonempty, (h part hpart).not_here]
  have hrelative : (([slash].intercalate parts).splitOn slash).filter
      (fun part => part ≠ [] && part ≠ here) = parts := by
    cases parts with
    | nil => rfl
    | cons first rest =>
      have hslashes : ∀ part ∈ first :: rest, slash ∉ part := fun part hpart =>
        (h part hpart).no_slash
      rw [List.splitOn_intercalate slash hslashes (by simp), hkept]
  cases absolute with
  | false => exact hrelative
  | true =>
    -- the slash at the beginning has an empty part before it
    have hsplit := List.splitOn_append_cons_self (a := slash) [] ([slash].intercalate parts)
    unfold components ofComponents
    simp only [if_true, List.singleton_append]
    rw [← List.nil_append (slash :: _), hsplit, List.filter_append, hrelative]
    rfl

theorem isAbsolute_ofComponents (absolute : Bool) (h : ∀ part ∈ parts, Names part) :
    (ofComponents absolute parts).isAbsolute = absolute := by
  cases absolute with
  | true => rfl
  | false =>
    cases parts with
    | nil => rfl
    | cons first rest =>
      obtain ⟨hnonempty, -, -, hslash⟩ := h first List.mem_cons_self
      obtain ⟨b, bs, rfl⟩ := List.exists_cons_of_ne_nil hnonempty
      have hb : b ≠ slash := fun heq => hslash (heq ▸ List.mem_cons_self)
      cases rest <;> simpa [ofComponents, isAbsolute, List.intercalate] using hb

theorem spelled_ofComponents (absolute : Bool) (h : ∀ part ∈ parts, Names part) :
    (ofComponents absolute parts).Spelled where
  eq := by rw [isAbsolute_ofComponents absolute h, components_ofComponents absolute h]
  names := by rwa [components_ofComponents absolute h]

/-! ### Resolving a specifier -/

theorem mem_step {next : List UInt8} (h : part ∈ step done next) :
    part ∈ done ∨ part = next ∧ part ≠ above := by
  unfold step at h
  split at h
  · exact .inl (List.mem_of_mem_tail h)
  · next hne =>
    rcases List.mem_cons.1 h with rfl | h
    · exact .inr ⟨rfl, hne⟩
    · exact .inl h

/-- Normalisation adds no components, and leaves no `..`. -/
theorem mem_normalize (h : part ∈ normalize parts) : part ∈ parts ∧ part ≠ above := by
  have hfold (done : List (List UInt8)) (hmem : part ∈ parts.foldl step done) :
      part ∈ done ∨ part ∈ parts ∧ part ≠ above := by
    clear h
    induction parts generalizing done with
    | nil => exact .inl hmem
    | cons first rest ih =>
      rcases ih _ hmem with hstep | ⟨hrest, hne⟩
      · rcases mem_step hstep with hdone | ⟨rfl, hne⟩
        · exact .inl hdone
        · exact .inr ⟨List.mem_cons_self, hne⟩
      · exact .inr ⟨List.mem_cons_of_mem _ hrest, hne⟩
  exact (hfold [] (List.mem_reverse.1 h)).resolve_left List.not_mem_nil

theorem names_of_mem_normalize (h : part ∈ normalize p.components) : Names part := by
  obtain ⟨hmem, hne⟩ := mem_normalize h
  obtain ⟨hsplit, hnonempty, hhere⟩ := mem_components_iff.1 hmem
  exact ⟨hnonempty, hhere, hne, notMem_of_mem_splitOn hsplit⟩

/-- **What a specifier names** is spelled by its components. -/
theorem spelled_resolve (directory specifier : Path) : (directory.resolve specifier).Spelled :=
  spelled_ofComponents _ fun _ => names_of_mem_normalize

/-- A path that is spelled by its components is known from them. -/
theorem Spelled.ext (hp : p.Spelled) (hq : q.Spelled) (habsolute : p.isAbsolute = q.isAbsolute)
    (hcomponents : p.components = q.components) : p = q := by
  rw [hp.eq, hq.eq, habsolute, hcomponents]

end Path

end ElementLens
