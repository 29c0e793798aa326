/-
Places in syntax trees.

In a tree that spells a text and knows its widths every node stands where its text
does, nodes below a node lie side by side, and of two nodes in preorder the second
lies behind the first or below it:

* **`Node.InPlace.of_mem_preorder`** — the text of a node;
* **`Node.adjoins_children`** — the nodes below a node;
* **`Node.pairwise_preorder`** — two nodes in preorder.
-/
import ElementLens.Proofs.Text.Boundary
import ElementLens.Proofs.Syntax.Walk

namespace ElementLens.Syntax

open Text

variable {κ : Type}

/-- The tree of a text: its leaves spell the text, and its branches know their
widths. So ranges are nested, ordered and disjoint, and fall between
characters. -/
structure Tree.Spells (t : Tree κ) (cs : List Char) : Prop where
  text_eq : t.text = cs
  measured : t.Measured

theorem Tree.widths_cons (t : Tree κ) (ts : List (Tree κ)) :
    widths (t :: ts) = t.width + widths ts := by
  have hfold : ∀ (ts : List (Tree κ)) (n : Nat),
      ts.foldl (fun n t => n + t.width) n = n + widths ts := by
    intro ts
    induction ts with
    | nil => intro n; rfl
    | cons t ts ih =>
      intro n
      rw [widths, List.foldl_cons, List.foldl_cons, ih, ih]
      omega
  rw [widths, List.foldl_cons, hfold, Nat.zero_add]

theorem Tree.measured_leaf (k : κ) (s : String) : (Tree.leaf k s).Measured :=
  .leaf k s

theorem Tree.Measured.of_node {k : κ} {w : Nat} {cs : List (Tree κ)}
    (h : (Tree.node k w cs).Measured) : ∀ c ∈ cs, c.Measured := by
  cases h with
  | node _ _ hall => exact hall

theorem Tree.measured_branch {k : κ} {cs : List (Tree κ)} :
    (branch k cs).Measured ↔ ∀ c ∈ cs, c.Measured :=
  ⟨Measured.of_node, .node k cs⟩

theorem Tree.Measured.bytes_text {t : Tree κ} (h : t.Measured) : bytes t.text = t.width := by
  induction h with
  | leaf k s => rw [Tree.text, bytes_toList, Tree.width]
  | node k cs _ ih =>
    rw [branch, Tree.text, Tree.width]
    induction cs with
    | nil => rfl
    | cons t ts ihts =>
      rw [List.flatMap_cons, bytes_append, ih t List.mem_cons_self, widths_cons]
      rw [ihts (fun c hc => ‹∀ c ∈ t :: ts, c.Measured› c (List.mem_cons_of_mem t hc))
        fun c hc => ih c (List.mem_cons_of_mem t hc)]

namespace Node

/-! ### Nodes side by side -/

/-- Nodes side by side from one offset to another. -/
def Adjoins : Nat → List (Node κ) → Nat → Prop
  | start, [], stop => start = stop
  | start, n :: ns, stop => n.start = start ∧ Adjoins n.stop ns stop

theorem adjoins_append {start stop : Nat} {ms ns : List (Node κ)} :
    Adjoins start (ms ++ ns) stop ↔ ∃ mid, Adjoins start ms mid ∧ Adjoins mid ns stop := by
  induction ms generalizing start with
  | nil => simp [Adjoins]
  | cons m ms ih => simp [Adjoins, ih, and_assoc]

namespace Adjoins

variable {start stop : Nat} {ns : List (Node κ)}

theorem le (h : Adjoins start ns stop) : start ≤ stop := by
  induction ns generalizing start with
  | nil => exact le_of_eq h
  | cons n ns ih =>
    obtain ⟨rfl, hrest⟩ := h
    exact (Nat.le_add_right _ _).trans (ih hrest)

theorem bounds (h : Adjoins start ns stop) : ∀ n ∈ ns, start ≤ n.start ∧ n.stop ≤ stop := by
  induction ns generalizing start with
  | nil => simp
  | cons n ns ih =>
    obtain ⟨rfl, hrest⟩ := h
    intro m hm
    rcases List.mem_cons.1 hm with rfl | hm
    · exact ⟨le_rfl, hrest.le⟩
    · have hstop : n.start ≤ n.stop := Nat.le_add_right _ _
      obtain ⟨hstart, hm⟩ := ih hrest m hm
      exact ⟨hstop.trans hstart, hm⟩

theorem pairwise (h : Adjoins start ns stop) : ns.Pairwise fun a b => a.stop ≤ b.start := by
  induction ns generalizing start with
  | nil => exact .nil
  | cons n ns ih =>
    obtain ⟨rfl, hrest⟩ := h
    exact List.pairwise_cons.2 ⟨fun m hm => (hrest.bounds m hm).1, ih hrest⟩

end Adjoins

theorem adjoins_placed (start : Nat) (ts : List (Tree κ)) :
    Adjoins start (placed start ts) (start + Tree.widths ts) := by
  induction ts generalizing start with
  | nil => rfl
  | cons t ts ih =>
    refine ⟨rfl, ?_⟩
    rw [Tree.widths_cons, ← Nat.add_assoc]
    exact ih (start + t.width)

theorem tree_mem_of_placed {start : Nat} {ts : List (Tree κ)} {c : Node κ}
    (hc : c ∈ placed start ts) : c.tree ∈ ts := by
  induction ts generalizing start with
  | nil => simp [placed] at hc
  | cons t ts ih =>
    rcases List.mem_cons.1 hc with rfl | hc
    · exact List.mem_cons_self
    · exact List.mem_cons_of_mem t (ih hc)

theorem measured_child {n c : Node κ} (h : n.tree.Measured) (hc : c ∈ n.children) :
    c.tree.Measured := by
  rw [children_eq] at hc
  have hmem := tree_mem_of_placed hc
  cases ht : n.tree with
  | leaf k s => simp [ht, Tree.children] at hmem
  | node k w cs =>
    rw [ht] at h hmem
    exact h.of_node _ hmem

theorem measured_of_mem_preorder {n m : Node κ} (h : n.tree.Measured) (hm : m ∈ n.preorder) :
    m.tree.Measured :=
  forall_preorder (fun _ hn _ hc => measured_child hn hc) n h m hm

/-- The nodes below a branch fill it. -/
theorem adjoins_children {n : Node κ} (h : n.tree.Measured) (hne : n.children ≠ []) :
    Adjoins n.start n.children n.stop := by
  obtain ⟨start, t⟩ := n
  cases h with
  | leaf k s => exact absurd rfl hne
  | node k cs _ =>
    rw [children_eq, stop]
    exact adjoins_placed start cs

theorem bounds_of_child {n c : Node κ} (h : n.tree.Measured) (hc : c ∈ n.children) :
    n.start ≤ c.start ∧ c.stop ≤ n.stop :=
  (adjoins_children h (List.ne_nil_of_mem hc)).bounds c hc

/-- A node below another one lies within it. -/
theorem bounds_of_mem_preorder {n m : Node κ} (h : n.tree.Measured) (hm : m ∈ n.preorder) :
    n.start ≤ m.start ∧ m.stop ≤ n.stop := by
  have step : ∀ a : Node κ, (a.tree.Measured ∧ n.start ≤ a.start ∧ a.stop ≤ n.stop) →
      ∀ c ∈ a.children, c.tree.Measured ∧ n.start ≤ c.start ∧ c.stop ≤ n.stop := by
    rintro a ⟨ha, hstart, hstop⟩ c hc
    obtain ⟨hcstart, hcstop⟩ := bounds_of_child ha hc
    exact ⟨measured_child ha hc, hstart.trans hcstart, hcstop.trans hstop⟩
  exact (forall_preorder step n ⟨h, le_rfl, le_rfl⟩ m hm).2

/-- Of two nodes in preorder the second lies behind the first, or below it. -/
theorem pairwise_preorder {n : Node κ} (h : n.tree.Measured) :
    n.preorder.Pairwise fun a b => a.stop ≤ b.start ∨ ∃ c ∈ a.children, b ∈ c.preorder := by
  induction n using below_induction with
  | step n ih =>
    rw [preorder_eq, List.pairwise_cons]
    refine ⟨fun b hb => .inr (List.mem_flatMap.1 hb), ?_⟩
    rw [List.pairwise_flatMap]
    refine ⟨fun c hc => ih c hc (measured_child h hc), ?_⟩
    by_cases hne : n.children = []
    · rw [hne]
      exact .nil
    · refine (adjoins_children h hne).pairwise.imp_of_mem fun ha hb hab a hma b hmb => .inl ?_
      have hstop := (bounds_of_mem_preorder (measured_child h ha) hma).2
      have hstart := (bounds_of_mem_preorder (measured_child h hb) hmb).1
      omega

/-! ### Texts -/

theorem toList_text (n : Node κ) : n.text.toList = n.tree.text := by
  unfold text
  split
  · rename_i ht
    rw [ht, Tree.text]
  · rename_i ht
    rw [String.toList_ofList, ht]

/-- A branch says what the nodes below it say. -/
theorem text_eq_join {n : Node κ} (h : n.children ≠ []) :
    n.text = String.join (n.children.map text) := by
  have htext : n.tree.text = n.tree.children.flatMap Tree.text := by
    cases ht : n.tree with
    | leaf k s => exact absurd (by rw [children_eq, ht]; rfl) h
    | node k w cs => rw [Tree.text, Tree.children]
  rw [← String.toList_inj, toList_text, htext, ← map_tree_children, String.toList_join]
  simp only [List.flatMap_map, toList_text]

/-- A node of a tree that knows its widths stands where its text does. -/
structure InPlace (cs : List Char) (n : Node κ) : Prop where
  measured : n.tree.Measured
  holds : Holds cs n.start n.stop n.tree.text

theorem holds_placed {cs : List Char} {start stop : Nat} {ts : List (Tree κ)}
    (hall : ∀ t ∈ ts, t.Measured) (h : Holds cs start stop (ts.flatMap Tree.text)) :
    ∀ c ∈ placed start ts, Holds cs c.start c.stop c.tree.text := by
  induction ts generalizing start with
  | nil => simp [placed]
  | cons t ts ih =>
    rw [List.flatMap_cons] at h
    obtain ⟨hfirst, hrest⟩ := h.split
    rw [(hall t List.mem_cons_self).bytes_text] at hfirst hrest
    intro c hc
    rcases List.mem_cons.1 hc with rfl | hc
    · exact hfirst
    · exact ih (fun t' ht' => hall t' (List.mem_cons_of_mem t ht')) hrest c hc

theorem InPlace.child {cs : List Char} {n : Node κ} (h : InPlace cs n) :
    ∀ c ∈ n.children, InPlace cs c := by
  intro c hc
  refine ⟨measured_child h.measured hc, ?_⟩
  obtain ⟨start, t⟩ := n
  obtain ⟨hmeasured, hholds⟩ := h
  cases hmeasured with
  | leaf k s => simp [children_eq, Tree.children, placed] at hc
  | node k ts hall =>
    have htext : (Tree.branch k ts).text = ts.flatMap Tree.text := by rw [Tree.branch, Tree.text]
    rw [children_eq] at hc
    exact holds_placed hall (htext ▸ hholds) c hc

theorem InPlace.of_mem_preorder {cs : List Char} {n m : Node κ} (h : InPlace cs n)
    (hm : m ∈ n.preorder) : InPlace cs m :=
  forall_preorder (fun _ ha => ha.child) n h m hm

end Node

/-- The tree of a text stands at its start. -/
theorem Tree.Spells.inPlace {t : Tree κ} {cs : List Char} (h : t.Spells cs) :
    Node.InPlace cs ⟨0, t⟩ := by
  refine ⟨h.measured, [], [], ?_, rfl, ?_⟩
  · simp [h.text_eq]
  · simp [h.measured.bytes_text, Node.stop]

end ElementLens.Syntax
