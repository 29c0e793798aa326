/-
Cutting a text along a shape.

A shape knows how a text is divided but holds none of it. Cutting the text
along the shape gives the tree: every terminal becomes a leaf with its text,
blanks become leaves of their own in front of what they precede, and
constructs become branches, except for those that are not shown, whose parts
take their place.

Whatever the shape, no text is lost or moved:

* **`text_cutAll`** — cutting keeps the text, so
* **`text_cut`** — the tree of a text spells that text, and
* **`measured_cut`** — its branches know their widths.
-/
import ElementLens.Parsing.Shape
import ElementLens.Syntax.Tree

namespace ElementLens.Syntax

open Parsing (Shape Label)

/-- How shapes are shown. A construct without a kind is not shown. `named`
gives for each step of a production the kind under which it is shown, if that
is not the usual one. -/
structure Naming (κ : Type) where
  whole : κ
  blank : κ
  error : κ
  missing : Nat → κ
  terminal : Nat → κ
  construct : Nat → Option κ
  named : Nat → List (Option κ)

/-- What is left to do: cut a shape, or finish a branch. The blanks in front
of a shape may have been cut already. -/
inductive Job (κ μ : Type) where
  | shape (s : Shape μ) (isBare : Bool) (name : Option κ)
  | close (kind : κ)

namespace Job

variable {κ μ : Type}

/-- The size of what is left to do. -/
def size : Job κ μ → Nat
  | shape s _ _ => 2 * s.count
  | close _ => 1

/-- The total size. -/
def sizes (jobs : List (Job κ μ)) : Nat :=
  total (jobs.map size)

/-- The parts of a construct, with the names of the steps. Extras are no
steps. -/
def ofParts (names : List (Option κ)) (isBare : Bool) : List (Shape μ) → List (Job κ μ)
  | [] => []
  | s :: rest =>
    if s.summary.extra then shape s isBare none :: ofParts names false rest
    else shape s isBare (names.headD none) :: ofParts names.tail false rest

theorem sizes_ofParts (names : List (Option κ)) (isBare : Bool) (parts : List (Shape μ)) :
    sizes (ofParts names isBare parts) = 2 * total (parts.map Shape.count) := by
  induction parts generalizing names isBare with
  | nil => rfl
  | cons s rest ih =>
    simp only [sizes] at ih
    unfold ofParts
    split <;> simp [sizes, size, ih, Nat.mul_add]

end Job

/-- Trees so far: those of the branch being made and, below, those of the
branches around it, all in reverse. -/
structure Cutting (κ : Type) where
  done : List (Tree κ)
  around : List (List (Tree κ))
  rest : List Char

namespace Cutting

variable {κ μ : Type}

/-- The text of trees in reverse. -/
def textOf (trees : List (Tree κ)) : List Char :=
  trees.reverse.flatMap Tree.text

/-- All text, cut or not. -/
def text (c : Cutting κ) : List Char :=
  c.around.reverse.flatMap textOf ++ textOf c.done ++ c.rest

/-- Cuts off a leaf. -/
def take (c : Cutting κ) (kind : κ) (n : Nat) : Cutting κ :=
  { c with done := .leaf kind (String.ofList (c.rest.take n)) :: c.done, rest := c.rest.drop n }

/-- Cuts off blanks, if there are any. -/
def takeBlank (c : Cutting κ) (kind : κ) (n : Nat) : Cutting κ :=
  if n = 0 then c else c.take kind n

/-- Begins a branch. -/
def opened (c : Cutting κ) : Cutting κ :=
  { c with done := [], around := c.done :: c.around }

/-- Ends the branch. -/
def closed (c : Cutting κ) (kind : κ) : Cutting κ :=
  match c.around with
  | [] => { c with done := [.branch kind c.done.reverse] }
  | outer :: around =>
    { c with done := .branch kind c.done.reverse :: outer, around }

@[simp] theorem text_take (c : Cutting κ) (kind : κ) (n : Nat) :
    (c.take kind n).text = c.text := by
  simp [take, text, textOf, Tree.text]

@[simp] theorem text_takeBlank (c : Cutting κ) (kind : κ) (n : Nat) :
    (c.takeBlank kind n).text = c.text := by
  unfold takeBlank
  split <;> simp

@[simp] theorem text_opened (c : Cutting κ) : c.opened.text = c.text := by
  simp [opened, text, textOf]

@[simp] theorem text_closed (c : Cutting κ) (kind : κ) : (c.closed kind).text = c.text := by
  unfold closed
  split <;> rename_i h <;> simp [text, textOf, Tree.text, Tree.branch, h]

end Cutting

variable {κ μ : Type}

/-- Cuts off a shape without parts. One of no width only leaves a trace if it
is a visible terminal that the text lacks. -/
def cutLeaf (n : Naming κ) (c : Cutting κ) (s : Shape μ) (name : Option κ) : Cutting κ :=
  let kind := match s.label with
    | .terminal i => if s.summary.supplied then n.missing i else name.getD (n.terminal i)
    | .construct i _ => (n.construct i).getD n.blank
    | .error | .skipped => n.error
  if s.summary.size.chars = 0 && !(s.summary.supplied && s.summary.visible) then c
  else c.take kind s.summary.size.chars

/-- The kind of the branch for a shape with parts, if it is shown. -/
def branchKind? (n : Naming κ) (s : Shape μ) : Option κ :=
  match s.label with
  | .construct i _ => n.construct i
  | .error => some n.error
  | .terminal _ | .skipped => none

/-- The names of the steps of a shape. -/
def stepNames (n : Naming κ) (s : Shape μ) : List (Option κ) :=
  match s.label with
  | .construct _ production => n.named production
  | _ => []

theorem sizes_parts_lt (s : Shape μ) (names : List (Option κ)) (isBare isBare' : Bool)
    (name : Option κ) (jobs : List (Job κ μ)) (kind : κ) :
    Job.sizes (Job.ofParts names isBare' s.parts ++ .close kind :: jobs)
      < Job.sizes (.shape s isBare name :: jobs) := by
  have h := Job.sizes_ofParts (κ := κ) names isBare' s.parts
  cases s with
  | mk l m ps =>
    simp only [Shape.parts] at *
    simp only [Job.sizes, List.map_append, total_append, List.map_cons, total_cons] at *
    simp [Job.size, Shape.count, h]
    omega

theorem sizes_parts_le (s : Shape μ) (names : List (Option κ)) (isBare isBare' : Bool)
    (name : Option κ) (jobs : List (Job κ μ)) :
    Job.sizes (Job.ofParts names isBare' s.parts ++ jobs)
      < Job.sizes (.shape s isBare name :: jobs) := by
  have h := Job.sizes_ofParts (κ := κ) names isBare' s.parts
  cases s with
  | mk l m ps =>
    simp only [Shape.parts] at *
    simp only [Job.sizes, List.map_append, total_append, List.map_cons, total_cons] at *
    simp [Job.size, Shape.count, h]

theorem sizes_tail_lt (j : Job κ μ) (jobs : List (Job κ μ)) :
    Job.sizes jobs < Job.sizes (j :: jobs) := by
  simp only [Job.sizes, List.map_cons, total_cons]
  cases j with
  | close _ => simp [Job.size]
  | shape s _ _ => cases s; simp only [Job.size, Shape.count]; omega

/-- Does all jobs. The list of jobs is the stack, so depth costs no
recursion. -/
def cutAll (n : Naming κ) (c : Cutting κ) : List (Job κ μ) → Cutting κ
  | [] => c
  | .close kind :: jobs => cutAll n (c.closed kind) jobs
  | .shape s isBare name :: jobs =>
    let c := if isBare then c else c.takeBlank n.blank s.summary.blank.chars
    if s.parts.isEmpty then cutAll n (cutLeaf n c s name) jobs
    else
      match branchKind? n s with
      | none => cutAll n c (Job.ofParts (stepNames n s) true s.parts ++ jobs)
      | some kind =>
        cutAll n c.opened (Job.ofParts (stepNames n s) true s.parts ++ .close kind :: jobs)
termination_by jobs => Job.sizes jobs
decreasing_by
  · exact sizes_tail_lt _ _
  · exact sizes_tail_lt _ _
  · exact sizes_parts_le _ _ _ _ _ _
  · exact sizes_parts_lt _ _ _ _ _ _ _

theorem text_cutLeaf (n : Naming κ) (c : Cutting κ) (s : Shape μ) (name : Option κ) :
    (cutLeaf n c s name).text = c.text := by
  unfold cutLeaf
  dsimp only
  split
  · rfl
  · exact c.text_take _ _

theorem text_cutAll (n : Naming κ) (c : Cutting κ) (jobs : List (Job κ μ)) :
    (cutAll n c jobs).text = c.text := by
  fun_induction cutAll n c jobs with
  | case1 => rfl
  | case2 c kind jobs ih => rw [ih, Cutting.text_closed]
  | case3 c s isBare name jobs c' _ ih =>
    rw [ih, text_cutLeaf]
    simp only [c']
    split <;> simp
  | case4 c s isBare name jobs c' _ _ ih =>
    rw [ih]
    simp only [c']
    split <;> simp
  | case5 c s isBare name jobs c' _ kind _ ih =>
    rw [ih, Cutting.text_opened]
    simp only [c']
    split <;> simp

/-! ### Widths -/

/-- All trees so far know their widths. -/
def Cutting.Measured (c : Cutting κ) : Prop :=
  (∀ t ∈ c.done, t.Measured) ∧ ∀ ts ∈ c.around, ∀ t ∈ ts, Tree.Measured t

namespace Cutting

theorem Measured.take {c : Cutting κ} (h : c.Measured) (kind : κ) (n : Nat) :
    (c.take kind n).Measured :=
  ⟨by simpa [Cutting.take] using ⟨Tree.Measured.leaf _ _, h.1⟩, h.2⟩

theorem Measured.takeBlank {c : Cutting κ} (h : c.Measured) (kind : κ) (n : Nat) :
    (c.takeBlank kind n).Measured := by
  unfold Cutting.takeBlank
  split
  · exact h
  · exact h.take kind n

theorem Measured.opened {c : Cutting κ} (h : c.Measured) : c.opened.Measured :=
  ⟨by simp [Cutting.opened], by simpa [Cutting.opened] using ⟨h.1, h.2⟩⟩

theorem Measured.closed {c : Cutting κ} (h : c.Measured) (kind : κ) :
    (c.closed kind).Measured := by
  have branch : Tree.Measured (Tree.branch kind c.done.reverse) :=
    .node kind _ fun t ht => h.1 t (List.mem_reverse.1 ht)
  unfold Cutting.closed
  split
  · rename_i e
    exact ⟨by simpa using branch, by simp [e]⟩
  · rename_i outer around e
    have outside := h.2
    rw [e] at outside
    refine ⟨?_, fun ts hts => outside ts (List.mem_cons_of_mem _ hts)⟩
    intro t ht
    rcases List.mem_cons.1 ht with rfl | ht
    · exact branch
    · exact outside outer List.mem_cons_self t ht

end Cutting

theorem measured_cutLeaf (n : Naming κ) {c : Cutting κ} (h : c.Measured) (s : Shape μ)
    (name : Option κ) : (cutLeaf n c s name).Measured := by
  unfold cutLeaf
  dsimp only
  split
  · exact h
  · exact h.take _ _

theorem measured_cutAll (n : Naming κ) {c : Cutting κ} (h : c.Measured) (jobs : List (Job κ μ)) :
    (cutAll n c jobs).Measured := by
  have blanks {c : Cutting κ} (h : c.Measured) (isBare : Bool) (s : Shape μ) :
      (if isBare then c else c.takeBlank n.blank s.summary.blank.chars).Measured := by
    split
    · exact h
    · exact h.takeBlank _ _
  fun_induction cutAll n c jobs with
  | case1 => exact h
  | case2 c kind jobs ih => exact ih (h.closed kind)
  | case3 c s isBare name jobs c' _ ih => exact ih (measured_cutLeaf n (blanks h isBare s) s name)
  | case4 c s isBare name jobs c' _ _ ih => exact ih (blanks h isBare s)
  | case5 c s isBare name jobs c' _ kind _ ih => exact ih (blanks h isBare s).opened

/-- All branches that were left open are ended as they are. -/
def Cutting.trees (c : Cutting κ) : List (Tree κ) :=
  c.around.foldl (fun inner outer => outer.reverse ++ inner) c.done.reverse

theorem foldl_around_text (around : List (List (Tree κ))) (inner : List (Tree κ)) :
    (around.foldl (fun inner outer => outer.reverse ++ inner) inner).flatMap Tree.text
      = around.reverse.flatMap Cutting.textOf ++ inner.flatMap Tree.text := by
  induction around generalizing inner with
  | nil => simp
  | cons outer around ih =>
    rw [List.foldl_cons, ih]
    simp [Cutting.textOf]

theorem Cutting.text_trees (c : Cutting κ) :
    c.trees.flatMap Tree.text ++ c.rest = c.text := by
  rw [trees, foldl_around_text]
  simp [text, textOf]

/-- The tree of a text: the text is cut along the shape, and what is left of
it then comes last. -/
def cut (n : Naming κ) (s : Shape μ) (cs : List Char) : Tree κ :=
  let c := cutAll n ⟨[], [], cs⟩ [Job.shape s false none]
  .branch n.whole (c.trees ++ if c.rest.isEmpty then [] else [.leaf n.blank (String.ofList c.rest)])

theorem text_cut (n : Naming κ) (s : Shape μ) (cs : List Char) : (cut n s cs).text = cs := by
  have h := text_cutAll n ⟨[], [], cs⟩ [Job.shape s false none]
  rw [← Cutting.text_trees] at h
  unfold cut
  dsimp only
  generalize cutAll n ⟨[], [], cs⟩ [Job.shape s false none] = c at h
  have h0 : (⟨[], [], cs⟩ : Cutting κ).text = cs := by simp [Cutting.text, Cutting.textOf]
  rw [h0] at h
  rw [← h]
  split
  · rename_i e
    simp [Tree.branch, Tree.text, List.isEmpty_iff.1 e]
  · simp [Tree.branch, Tree.text]

theorem Cutting.measured_trees {c : Cutting κ} (h : c.Measured) :
    ∀ t ∈ c.trees, t.Measured := by
  have all (around : List (List (Tree κ))) (inner : List (Tree κ))
      (ho : ∀ ts ∈ around, ∀ t ∈ ts, Tree.Measured t) (hi : ∀ t ∈ inner, Tree.Measured t) :
      ∀ t ∈ around.foldl (fun inner outer => outer.reverse ++ inner) inner, Tree.Measured t := by
    induction around generalizing inner with
    | nil => exact hi
    | cons outer around ih =>
      refine ih _ (fun ts hts => ho ts (List.mem_cons_of_mem _ hts)) fun t ht => ?_
      rcases List.mem_append.1 ht with ht | ht
      · exact ho outer List.mem_cons_self t (List.mem_reverse.1 ht)
      · exact hi t ht
  exact all c.around _ h.2 fun t ht => h.1 t (List.mem_reverse.1 ht)

theorem measured_cut (n : Naming κ) (s : Shape μ) (cs : List Char) : (cut n s cs).Measured := by
  have start : (⟨[], [], cs⟩ : Cutting κ).Measured := ⟨by simp, by simp⟩
  have h := Cutting.measured_trees (measured_cutAll n start [Job.shape s false none])
  unfold cut
  refine .node _ _ fun t ht => ?_
  rcases List.mem_append.1 ht with ht | ht
  · exact h t ht
  · split at ht
    · simp at ht
    · rw [List.mem_singleton.1 ht]
      exact .leaf _ _

end ElementLens.Syntax
