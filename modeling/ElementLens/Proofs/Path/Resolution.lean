/-
Resolving is lexical normalisation.

Seen from a directory, a relative specifier is the list of its components, read one after
the other on a stack: `..` takes the last one off, and nothing if there is none. So only
what the specifier does to the stack matters, not how it is spelled (`Path.Respells`), and
reading one specifier after another is reading both:

* **`components_resolve`** — the components that a specifier leads to;
* **`Respells.foldl_step`** — a detour leaves the stack as it was;
* **`resolve_slashed`** — a specifier after another one;
* **`resolve_is_lexical`** — what resolving keeps and how it goes on step by step.
-/
import ElementLens.Proofs.Path.Components
import Mathlib.Logic.Relation

namespace ElementLens

namespace Path

/-- A specifier that follows a directory: it is not empty and does not begin at the
root. -/
structure IsRelative (s : Path) : Prop where
  nonempty : s.bytes ≠ []
  not_absolute : s.isAbsolute = false

/-- A specifier and another one after a slash. -/
def slashed (s t : Path) : Path :=
  ⟨s.bytes ++ slash :: t.bytes⟩

/-- What leads nowhere: staying, or going down to something and up again. -/
inductive Detour : List UInt8 → Prop
  | here : Detour here
  | back {part : List UInt8} : Names part → Detour (part ++ slash :: above)

/-- The second specifier is the first with a detour in front of it, behind it, or at one
of its slashes, or with a slash repeated. -/
inductive Respells : Path → Path → Prop
  | before {s : Path} {detour : List UInt8} :
    Detour detour → Respells s ⟨detour ++ slash :: s.bytes⟩
  | after {s : Path} {detour : List UInt8} :
    Detour detour → Respells s ⟨s.bytes ++ slash :: detour⟩
  | between {front back detour : List UInt8} :
    Detour detour →
    Respells ⟨front ++ slash :: back⟩ ⟨front ++ slash :: (detour ++ slash :: back)⟩
  | again {front back : List UInt8} :
    Respells ⟨front ++ slash :: back⟩ ⟨front ++ slash :: slash :: back⟩

variable {p s s' t : Path} {part : List UInt8} {parts done : List (List UInt8)}

/-! ### The stack -/

theorem foldl_step_of_names (h : ∀ part ∈ parts, Names part) (done : List (List UInt8)) :
    parts.foldl step done = parts.reverse ++ done := by
  induction parts generalizing done with
  | nil => rfl
  | cons first rest ih =>
    rw [List.foldl_cons, step, if_neg (h first List.mem_cons_self).not_above,
      ih (fun part hpart => h part (List.mem_cons_of_mem _ hpart))]
    simp

theorem normalize_of_names (h : ∀ part ∈ parts, Names part) : normalize parts = parts := by
  rw [normalize, foldl_step_of_names h, List.append_nil, List.reverse_reverse]

/-- Components that were normalised before need not be normalised again. -/
theorem normalize_normalize_append (p : Path) (parts : List (List UInt8)) :
    normalize (normalize p.components ++ parts) = normalize (p.components ++ parts) := by
  rw [normalize, List.foldl_append, foldl_step_of_names fun _ => names_of_mem_normalize,
    List.append_nil, normalize, List.reverse_reverse, ← List.foldl_append, ← normalize]

/-! ### Detours -/

theorem components_above : (⟨above⟩ : Path).components = [above] :=
  components_part (by decide) (by decide) (by decide)

theorem components_of_names (h : Names part) : (⟨part⟩ : Path).components = [part] :=
  components_part h.nonempty h.not_here h.no_slash

/-- A detour ends where it began. -/
theorem Detour.foldl_step {detour : List UInt8} (h : Detour detour) (done : List (List UInt8)) :
    (⟨detour⟩ : Path).components.foldl step done = done := by
  cases h with
  | here => rfl
  | back hpart =>
    rw [components_append_slash, components_of_names hpart, components_above]
    simp [step, hpart.not_above]

/-- Spelled in another way, a specifier does the same. -/
theorem Respells.foldl_step (h : Respells s s') (done : List (List UInt8)) :
    s'.components.foldl step done = s.components.foldl step done := by
  cases h with
  | before hdetour => rw [components_append_slash, List.foldl_append, hdetour.foldl_step]
  | after hdetour => rw [components_append_slash, List.foldl_append, hdetour.foldl_step]
  | between hdetour =>
    simp only [components_append_slash, List.foldl_append, hdetour.foldl_step]
  | @again front back =>
    have hempty : (⟨slash :: back⟩ : Path).components = (⟨back⟩ : Path).components :=
      components_append_slash [] back
    rw [components_append_slash, components_append_slash, hempty]

/-! ### Relative specifiers -/

theorem isRelative_cons {first : UInt8} {rest : List UInt8} :
    (⟨first :: rest⟩ : Path).IsRelative ↔ first ≠ slash :=
  ⟨fun h heq => absurd h.not_absolute (by simp [isAbsolute, heq]),
    fun hne => ⟨by simp, by simp [isAbsolute, hne]⟩⟩

theorem IsRelative.append (hs : s.IsRelative) (rest : List UInt8) :
    (⟨s.bytes ++ rest⟩ : Path).IsRelative := by
  obtain ⟨bytes⟩ := s
  obtain ⟨first, others, rfl⟩ := List.exists_cons_of_ne_nil hs.nonempty
  exact isRelative_cons.2 (isRelative_cons.1 hs)

theorem IsRelative.slashed (hs : s.IsRelative) (t : Path) : (s.slashed t).IsRelative :=
  hs.append _

/-- What stands before a slash of a relative specifier is relative. -/
theorem isRelative_front {front back : List UInt8}
    (h : (⟨front ++ slash :: back⟩ : Path).IsRelative) : (⟨front⟩ : Path).IsRelative := by
  cases front with
  | nil => exact absurd rfl (isRelative_cons.1 h)
  | cons first rest => exact isRelative_cons.2 (isRelative_cons.1 h)

theorem isRelative_of_names (h : Names part) : (⟨part⟩ : Path).IsRelative := by
  obtain ⟨first, rest, rfl⟩ := List.exists_cons_of_ne_nil h.nonempty
  exact isRelative_cons.2 fun heq => h.no_slash (heq ▸ List.mem_cons_self)

theorem isRelative_here : (⟨here⟩ : Path).IsRelative := isRelative_cons.2 (by decide)

theorem Detour.isRelative {detour : List UInt8} (h : Detour detour) :
    (⟨detour⟩ : Path).IsRelative := by
  cases h with
  | here => exact isRelative_here
  | back hpart => exact (isRelative_of_names hpart).append _

theorem Respells.isRelative (h : Respells s s') (hs : s.IsRelative) : s'.IsRelative := by
  cases h with
  | before hdetour => exact hdetour.isRelative.append _
  | after _ => exact hs.append _
  | between _ => exact (isRelative_front hs).append _
  | again => exact (isRelative_front hs).append _

/-! ### Resolving -/

/-- Seen from a directory, a relative specifier is read after the components of the
directory. -/
theorem resolve_eq (hp : p.isAbsolute = true) (hs : s.isAbsolute = false) :
    p.resolve s = ofComponents true (normalize (p.components ++ s.components)) := by
  have hbytes : p.bytes ≠ [] := by
    intro hnil
    rw [isAbsolute, hnil] at hp
    exact absurd hp (by decide)
  obtain ⟨first, rest, hfirst⟩ := List.exists_cons_of_ne_nil hbytes
  have hjoin : join p s = ⟨p.bytes ++ slash :: s.bytes⟩ := by
    simp [join, hs, hbytes]
  have habsolute : (⟨p.bytes ++ slash :: s.bytes⟩ : Path).isAbsolute = true := by
    rw [isAbsolute, hfirst] at hp
    rwa [isAbsolute, hfirst]
  simp only [resolve, hjoin, habsolute, components_append_slash]

theorem isAbsolute_resolve (hp : p.isAbsolute = true) (hs : s.isAbsolute = false) :
    (p.resolve s).isAbsolute = true := by
  rw [resolve_eq hp hs]
  rfl

theorem components_resolve (hp : p.isAbsolute = true) (hs : s.isAbsolute = false) :
    (p.resolve s).components = normalize (p.components ++ s.components) := by
  have hnames : ∀ part ∈ normalize (p.components ++ s.components), Names part := by
    rw [← components_append_slash]
    exact fun _ => names_of_mem_normalize
  rw [resolve_eq hp hs, components_ofComponents true hnames]

/-- A specifier after another one is resolved where that one leads. -/
theorem resolve_slashed (hp : p.isAbsolute = true) (hs : s.IsRelative) (ht : t.IsRelative) :
    (p.resolve s).resolve t = p.resolve (s.slashed t) := by
  rw [resolve_eq (isAbsolute_resolve hp hs.not_absolute) ht.not_absolute,
    components_resolve hp hs.not_absolute, resolve_eq hp (hs.slashed t).not_absolute,
    Path.slashed, ← components_append_slash, normalize_normalize_append,
    components_append_slash, components_append_slash, List.append_assoc]

/-- What a specifier does to the stack is all that matters. -/
theorem resolve_congr (hp : p.isAbsolute = true) (hs : s.isAbsolute = false)
    (hs' : s'.isAbsolute = false)
    (h : ∀ done, s'.components.foldl step done = s.components.foldl step done) :
    p.resolve s' = p.resolve s := by
  rw [resolve_eq hp hs, resolve_eq hp hs', normalize, normalize, List.foldl_append,
    List.foldl_append, h]

/-- However often a specifier is spelled in another way, it names the same. -/
theorem resolve_of_respells (hp : p.isAbsolute = true) (hs : s.IsRelative)
    (h : Relation.ReflTransGen Respells s s') :
    s'.IsRelative ∧ p.resolve s' = p.resolve s := by
  induction h with
  | refl => exact ⟨hs, rfl⟩
  | tail _ hstep ih =>
    obtain ⟨hrelative, hsame⟩ := ih
    have hnext := hstep.isRelative hrelative
    refine ⟨hnext, Eq.trans ?_ hsame⟩
    exact resolve_congr hp hrelative.not_absolute hnext.not_absolute hstep.foldl_step

/-- A directory may be resolved before a specifier is. -/
theorem resolve_here_resolve (hp : p.isAbsolute = true) (hs : s.IsRelative) :
    (p.resolve ⟨here⟩).resolve s = p.resolve s := by
  rw [resolve_slashed hp isRelative_here hs]
  exact (resolve_of_respells hp hs (.single (.before .here))).2

/-- Up from a directory in normal form. -/
theorem resolve_above (h : ∀ part ∈ parts, Names part) :
    (ofComponents true parts).resolve ⟨above⟩ = ofComponents true parts.dropLast := by
  rw [resolve_eq rfl (by decide), components_ofComponents true h, components_above, normalize,
    List.foldl_append, foldl_step_of_names h]
  simp [step, List.tail_reverse]

/-- Down from a directory in normal form. -/
theorem resolve_names (h : ∀ part ∈ parts, Names part) (hpart : Names part) :
    (ofComponents true parts).resolve ⟨part⟩ = ofComponents true (parts ++ [part]) := by
  rw [resolve_eq rfl (isRelative_of_names hpart).not_absolute, components_ofComponents true h, components_of_names hpart,
    normalize_of_names]
  intro part' hmem
  rcases List.mem_append.1 hmem with hmem | hmem
  · exact h part' hmem
  · rwa [List.mem_singleton.1 hmem]

/-- **Resolving is lexical normalisation.** What a relative specifier names, seen from an
absolute directory, is absolute and spelled by components, none of them empty, `.` or
`..`. A specifier after another one is resolved where that one leads; neither the spelling
of the directory nor that of the specifier matters. From a directory in normal form `..`
leads to the directory above, from the root to the root, and a name to what has it. -/
theorem resolve_is_lexical (hp : p.isAbsolute = true) (hs : s.IsRelative) (ht : t.IsRelative) :
    (p.resolve s).isAbsolute = true
    ∧ (∃ parts, p.resolve s = ofComponents true parts ∧ ∀ part ∈ parts, Names part)
    ∧ (p.resolve s).resolve t = p.resolve (s.slashed t)
    ∧ (p.resolve ⟨here⟩).resolve s = p.resolve s
    ∧ (∀ s', Relation.ReflTransGen Respells s s' → p.resolve s' = p.resolve s)
    ∧ (∀ parts, (∀ part ∈ parts, Names part) →
      (ofComponents true parts).resolve ⟨above⟩ = ofComponents true parts.dropLast
      ∧ ∀ part, Names part →
        (ofComponents true parts).resolve ⟨part⟩ = ofComponents true (parts ++ [part]))
    ∧ (⟨[slash]⟩ : Path).resolve ⟨above⟩ = ⟨[slash]⟩ := by
  have habsolute := isAbsolute_resolve hp hs.not_absolute
  have hspelled := spelled_resolve p s
  refine ⟨habsolute, ⟨_, habsolute ▸ hspelled.eq, hspelled.names⟩, resolve_slashed hp hs ht,
    resolve_here_resolve hp hs, fun s' h => (resolve_of_respells hp hs h).2, ?_, ?_⟩
  · exact fun parts h => ⟨resolve_above h, fun part hpart => resolve_names h hpart⟩
  · exact resolve_above (fun part h => absurd h List.not_mem_nil)

/-- Seen from `/project/src`, what `../shared/./x` names, and `card.js` there. A repeated
slash and a detour through `a` change nothing. -/
theorem resolve_is_lexical_card :
    (ofText "/project/src").isAbsolute = true
    ∧ (ofText "../shared/./x").IsRelative ∧ (ofText "card.js").IsRelative
    ∧ ((ofText "/project/src").resolve (ofText "../shared/./x")).resolve (ofText "card.js")
      = ofText "/project/shared/x/card.js"
    ∧ (ofText "/project/src").resolve (ofText "..//shared/./x/a/..")
      = (ofText "/project/src").resolve (ofText "../shared/./x") := by
  have hp : (ofText "/project/src").isAbsolute = true := by cbv
  have hs : (ofText "../shared/./x").IsRelative := ⟨by cbv; simp, by cbv⟩
  have ht : (ofText "card.js").IsRelative := ⟨by cbv; simp, by cbv⟩
  obtain ⟨-, -, hslashed, -, hrespells, -, -⟩ := resolve_is_lexical hp hs ht
  refine ⟨hp, hs, ht, hslashed.trans rfl, hrespells _ ?_⟩
  have ha : Names [97] := ⟨by decide, by decide, by decide, by decide⟩
  have hagain : Respells (ofText "../shared/./x") (ofText "..//shared/./x") :=
    @Respells.again above _
  have hback : Respells (ofText "..//shared/./x") (ofText "..//shared/./x/a/..") :=
    .after (.back ha)
  exact .tail (.single hagain) hback

end Path

end ElementLens
