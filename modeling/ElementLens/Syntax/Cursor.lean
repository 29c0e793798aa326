/-
Walking over trees.

A cursor stands at a node and moves to the nodes next to it: the first one below, the
next one beside, the one above. It stays within the node that it was made for, its root.
A walk is a loop that visits the node at the cursor and moves on: down if there is a
node below, and else up until there is a next one beside. So depth costs no recursion,
and nothing is kept but the way up:

* **`Cursor.leave?_eq`** — the way out of a node in single moves;
* **`Cursor.remaining_firstChild?`**, **`Cursor.remaining_leave?`** — after every visit
  there are fewer nodes to be visited, so the walk ends;
* **`Node.walk`** — visits a node and all below it, up to the first visit that fails.
-/
import ElementLens.Syntax.Tree

namespace ElementLens.Syntax

/-- A cursor: at its root, or at a node below one, with the nodes behind that one and the
cursor at the node above. -/
inductive Cursor (κ : Type) where
  | root (node : Node κ)
  | child (node : Node κ) (behind : List (Node κ)) (above : Cursor κ)

namespace Cursor

variable {κ : Type}

/-- The node at the cursor. -/
def node : Cursor κ → Node κ
  | root n => n
  | child n _ _ => n

@[simp] theorem node_root (n : Node κ) : (root n).node = n := rfl

@[simp] theorem node_child (n : Node κ) (behind : List (Node κ)) (above : Cursor κ) :
    (child n behind above).node = n := rfl

/-! ### Moves -/

/-- Down to the first node below. -/
def firstChild? (c : Cursor κ) : Option (Cursor κ) :=
  match c.node.children with
  | [] => none
  | n :: ns => some (child n ns c)

/-- On to the next node beside. -/
def nextSibling? : Cursor κ → Option (Cursor κ)
  | child _ (n :: ns) above => some (child n ns above)
  | child _ [] _ | root _ => none

/-- Up to the node above. -/
def parent? : Cursor κ → Option (Cursor κ)
  | child _ _ above => some above
  | root _ => none

/-- Out of the node at the cursor: up until there is a next node beside, and on to it. -/
def leave? : Cursor κ → Option (Cursor κ)
  | root n => (root n).nextSibling?
  | child n ns above =>
    match (child n ns above).nextSibling? with
    | some next => some next
    | none => above.leave?

/-- The way out is the next node beside, or else the way out of the node above. -/
theorem leave?_eq (c : Cursor κ) : c.leave? = c.nextSibling?.or (c.parent?.bind leave?) := by
  cases c with
  | root n => rfl
  | child n ns above => cases ns <;> rfl

/-! ### What is left to visit -/

/-- The number of nodes that are visited after those at and below the cursor. -/
def owed : Cursor κ → Nat
  | root _ => 0
  | child _ behind above => Node.counts behind + above.owed

/-- The number of nodes that are still to be visited, the one at the cursor included. -/
def remaining (c : Cursor κ) : Nat :=
  c.node.tree.count + c.owed

theorem remaining_leave? {c next : Cursor κ} (h : c.leave? = some next) :
    next.remaining = c.owed := by
  induction c with
  | root n => exact absurd h (by simp [leave?, nextSibling?])
  | child n ns above ih =>
    cases ns with
    | nil => rw [ih h, owed, Node.counts, List.map_nil, total_nil, Nat.zero_add]
    | cons m ns =>
      obtain rfl := Option.some.inj h
      simp [remaining, owed, Node.counts, Nat.add_assoc]

theorem remaining_leave?_lt {c next : Cursor κ} (h : c.leave? = some next) :
    next.remaining < c.remaining := by
  rw [remaining_leave? h, remaining]
  have := c.node.tree.count_pos
  omega

theorem children_of_firstChild? {c below : Cursor κ} (h : c.firstChild? = some below) :
    ∃ n ns, c.node.children = n :: ns ∧ below = child n ns c := by
  unfold firstChild? at h
  split at h
  · exact absurd h (by simp)
  · next heq => exact ⟨_, _, heq, (Option.some.inj h).symm⟩

theorem remaining_firstChild? {c below : Cursor κ} (h : c.firstChild? = some below) :
    below.remaining < c.remaining := by
  obtain ⟨n, ns, hchildren, rfl⟩ := children_of_firstChild? h
  have hless := Node.counts_children_lt c.node []
  simp only [hchildren, Node.counts, List.append_nil, List.map_cons, List.map_nil, total_cons,
    total_nil] at hless
  simp only [remaining, owed, node_child, Node.counts]
  omega

/-! ### Walking -/

/-- Visits the node at the cursor and moves on, as long as there is a node to move to.
`visit` may stop the walk with an error. -/
def walk {σ ε : Type} (visit : σ → Node κ → Except ε σ) (state : σ) (c : Cursor κ) :
    σ × Option ε :=
  match visit state c.node with
  | .error e => (state, some e)
  | .ok next =>
    match _ : c.firstChild? with
    | some below => below.walk visit next
    | none =>
      match _ : c.leave? with
      | some after => after.walk visit next
      | none => (next, none)
termination_by c.remaining
decreasing_by
  · exact remaining_firstChild? ‹_›
  · exact remaining_leave?_lt ‹_›

end Cursor

namespace Node

variable {κ : Type}

/-- Visits a node and all below it in preorder. The result is the last state
and the error that ended the walk, if one did. -/
def walk {σ ε : Type} (visit : σ → Node κ → Except ε σ) (state : σ) (n : Node κ) :
    σ × Option ε :=
  (Cursor.root n).walk visit state

/-- Folds over a node and all below it in preorder. -/
def foldPreorder {σ : Type} (visit : σ → Node κ → σ) (state : σ) (n : Node κ) : σ :=
  (walk (ε := Empty) (fun s m => .ok (visit s m)) state n).1

end Node

end ElementLens.Syntax
