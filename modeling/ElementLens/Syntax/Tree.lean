/-
Lossless syntax trees.

A tree is made of leaves, which hold the text itself, and of branches. Blanks
and comments are leaves like all others, so the leaves of a tree from left to
right give back the text it was read from, and the place of a branch in that
text is the length of all that stands to its left. Nothing else has to be
recorded for ranges to be nested, ordered and disjoint.

Every branch carries its width in bytes, so that places are found without
reading the leaves again. A `Node` is a tree at a place.

* **`Tree.width_branch`** — a branch is as wide as its children together;
* **`Node.preorder`** — a node and all below it, as a plain recursion.
-/
import ElementLens.Total

namespace ElementLens.Syntax

/-- A syntax tree with kinds from `κ`. -/
inductive Tree (κ : Type) where
  | leaf (kind : κ) (text : String)
  | node (kind : κ) (width : Nat) (children : List (Tree κ))
deriving Inhabited

namespace Tree

variable {κ : Type}

/-- The kind of a tree. -/
def kind : Tree κ → κ
  | leaf k _ => k
  | node k _ _ => k

/-- The number of bytes of the text of a tree. -/
def width : Tree κ → Nat
  | leaf _ s => s.utf8ByteSize
  | node _ w _ => w

/-- The trees directly below. -/
def children : Tree κ → List (Tree κ)
  | leaf _ _ => []
  | node _ _ cs => cs

/-- The total width of some trees. -/
def widths (ts : List (Tree κ)) : Nat :=
  ts.foldl (fun n t => n + t.width) 0

/-- The branch of a kind over some trees. -/
def branch (k : κ) (cs : List (Tree κ)) : Tree κ :=
  node k (widths cs) cs

@[simp] theorem width_branch (k : κ) (cs : List (Tree κ)) :
    (branch k cs).width = widths cs := rfl

/-- The text of a tree. -/
def text : Tree κ → List Char
  | leaf _ s => s.toList
  | node _ _ cs => cs.flatMap text

/-- Every branch carries the width of its children. -/
inductive Measured : Tree κ → Prop
  | leaf (k : κ) (s : String) : Measured (.leaf k s)
  | node (k : κ) (cs : List (Tree κ)) : (∀ c ∈ cs, Measured c) → Measured (branch k cs)

/-- The number of leaves and branches. -/
def count : Tree κ → Nat
  | leaf _ _ => 1
  | node _ _ cs => 1 + total (cs.map count)

theorem count_pos (t : Tree κ) : 0 < t.count := by
  cases t with
  | leaf _ _ => simp [count]
  | node _ _ cs =>
    rw [count]
    omega

end Tree

/-- A tree at a place: `start` is the byte offset of its first character. -/
structure Node (κ : Type) where
  start : Nat
  tree : Tree κ
deriving Inhabited

namespace Node

variable {κ : Type}

/-- The kind of a node. -/
def kind (n : Node κ) : κ := n.tree.kind

/-- The byte offset just after a node. -/
def stop (n : Node κ) : Nat := n.start + n.tree.width

/-- The text of a node. -/
def text (n : Node κ) : String :=
  match n.tree with
  | .leaf _ s => s
  | .node _ _ _ => String.ofList n.tree.text

/-- Trees side by side, the first of them at `start`. The result is built in
reverse. -/
def placeFrom (start : Nat) (done : List (Node κ)) : List (Tree κ) → List (Node κ)
  | [] => done.reverse
  | t :: ts => placeFrom (start + t.width) (⟨start, t⟩ :: done) ts

/-- The nodes directly below, in order. -/
def children (n : Node κ) : List (Node κ) :=
  placeFrom n.start [] n.tree.children

/-! ### Preorder -/

/-- The nodes of the trees side by side, each before those below it. -/
def preorderOf (start : Nat) : List (Tree κ) → List (Node κ)
  | [] => []
  | .leaf k s :: ts => ⟨start, .leaf k s⟩ :: preorderOf (start + (Tree.leaf k s).width) ts
  | .node k w cs :: ts =>
    ⟨start, .node k w cs⟩ :: preorderOf start cs ++ preorderOf (start + w) ts

/-- The node and all below it, each before those below it. -/
def preorder (n : Node κ) : List (Node κ) :=
  preorderOf n.start [n.tree]

/-- The number of leaves and branches under some nodes. -/
def counts (ns : List (Node κ)) : Nat :=
  total (ns.map fun n => n.tree.count)

theorem counts_placeFrom (start : Nat) (done : List (Node κ)) (ts : List (Tree κ)) :
    counts (placeFrom start done ts) = counts done + total (ts.map Tree.count) := by
  induction ts generalizing start done with
  | nil => simp [placeFrom, counts]
  | cons t ts ih =>
    rw [placeFrom, ih]
    simp [counts]
    omega

theorem counts_children_lt (n : Node κ) (ns : List (Node κ)) :
    counts (n.children ++ ns) < counts (n :: ns) := by
  have h : counts n.children < n.tree.count := by
    rw [children, counts_placeFrom]
    cases n.tree <;> simp [Tree.children, Tree.count, counts]
  simp only [counts, List.map_append, total_append, List.map_cons, total_cons] at *
  omega

theorem count_lt_of_child {n c : Node κ} (hc : c ∈ n.children) : c.tree.count < n.tree.count := by
  have hle : ∀ ns : List (Node κ), c ∈ ns → c.tree.count ≤ counts ns := by
    intro ns hmem
    induction ns with
    | nil => simp at hmem
    | cons m ns ih =>
      rw [counts, List.map_cons, total_cons]
      rcases List.mem_cons.1 hmem with rfl | hmem
      · omega
      · have := ih hmem
        rw [counts] at this
        omega
  have hlt := counts_children_lt n []
  have := hle n.children hc
  rw [List.append_nil] at hlt
  simp only [counts, List.map_cons, List.map_nil, total_cons, total_nil] at hlt this
  omega

end Node

end ElementLens.Syntax
