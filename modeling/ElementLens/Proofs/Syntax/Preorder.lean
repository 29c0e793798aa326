/-
Preorder.

The nodes of a tree are listed with each node before those below it and these in
order. Every node has an address, which says along which of the nodes directly below to
go down. The preorder lists the nodes in the order of their addresses, as in a
dictionary, so that it has each of them once, even if two of them look the same:

* **`Node.preorder_eq`** — the list as a recursion over nodes;
* **`Node.mem_preorder_iff`** — the nodes in the list;
* **`Node.mem_addresses_iff`**, **`Node.pairwise_addresses`**,
  **`Node.map_at?_addresses`** — their addresses.
-/
import ElementLens.Syntax.Tree
import Mathlib.Data.List.FinRange

namespace ElementLens.Syntax.Node

variable {κ : Type}

/-! ### Nodes in preorder -/

/-- Trees side by side, the first of them at `start`. -/
def placed (start : Nat) : List (Tree κ) → List (Node κ)
  | [] => []
  | t :: ts => ⟨start, t⟩ :: placed (start + t.width) ts

theorem placeFrom_eq (start : Nat) (done : List (Node κ)) (ts : List (Tree κ)) :
    placeFrom start done ts = done.reverse ++ placed start ts := by
  induction ts generalizing start done with
  | nil => simp [placeFrom, placed]
  | cons t ts ih => simp [placeFrom, placed, ih]

theorem children_eq (n : Node κ) : n.children = placed n.start n.tree.children := by
  rw [children, placeFrom_eq]
  rfl

theorem map_tree_placed (start : Nat) (ts : List (Tree κ)) : (placed start ts).map tree = ts := by
  induction ts generalizing start with
  | nil => rfl
  | cons t ts ih => rw [placed, List.map_cons, ih]

theorem map_tree_children (n : Node κ) : n.children.map tree = n.tree.children := by
  rw [children_eq, map_tree_placed]

theorem preorderOf_eq (start : Nat) (ts : List (Tree κ)) :
    preorderOf start ts = (placed start ts).flatMap preorder := by
  induction ts generalizing start with
  | nil => simp [preorderOf, placed]
  | cons t ts ih =>
    rw [placed, List.flatMap_cons, preorder, ← ih]
    cases t <;> simp [preorderOf, Tree.width]

/-- A node comes before those below it, and these in order. -/
theorem preorder_eq (n : Node κ) : n.preorder = n :: n.children.flatMap preorder := by
  obtain ⟨start, t⟩ := n
  cases t with
  | leaf k s => simp [preorder, preorderOf, children_eq, Tree.children, placed]
  | node k w cs =>
    rw [children_eq, ← preorderOf_eq]
    simp [preorder, preorderOf, Tree.children]

theorem self_mem_preorder (n : Node κ) : n ∈ n.preorder := by
  rw [preorder_eq]
  exact List.mem_cons_self

theorem mem_preorder_of_child {n c m : Node κ} (hc : c ∈ n.children) (hm : m ∈ c.preorder) :
    m ∈ n.preorder := by
  rw [preorder_eq]
  exact List.mem_cons_of_mem n (List.mem_flatMap.2 ⟨c, hc, hm⟩)

/-- Induction over nodes: from those directly below to the node above. -/
theorem below_induction {p : Node κ → Prop} (step : ∀ n, (∀ c ∈ n.children, p c) → p n)
    (n : Node κ) : p n :=
  step n fun c _ => below_induction step c
termination_by n.tree.count
decreasing_by exact count_lt_of_child ‹_›

/-- What holds of a node, and passes from nodes to the nodes directly below,
holds of all nodes below. -/
theorem forall_preorder {p : Node κ → Prop} (step : ∀ n, p n → ∀ c ∈ n.children, p c)
    (n : Node κ) (h : p n) : ∀ m ∈ n.preorder, p m := by
  induction n using below_induction with
  | step n ih =>
    intro m hm
    rw [preorder_eq] at hm
    rcases List.mem_cons.1 hm with rfl | hm
    · exact h
    · obtain ⟨c, hc, hm⟩ := List.mem_flatMap.1 hm
      exact ih c hc (step n h c hc) m hm

theorem mem_preorder_trans {n m k : Node κ} (hm : m ∈ n.preorder) (hk : k ∈ m.preorder) :
    k ∈ n.preorder := by
  have step : ∀ a : Node κ, (∀ b ∈ a.preorder, b ∈ n.preorder) →
      ∀ c ∈ a.children, ∀ b ∈ c.preorder, b ∈ n.preorder :=
    fun a ha c hc b hb => ha b (mem_preorder_of_child hc hb)
  exact forall_preorder step n (fun b hb => hb) m hm k hk

/-- A node, or one that stands below it at any depth. -/
inductive Contains (n : Node κ) : Node κ → Prop
  | self : n.Contains n
  | child {m c : Node κ} : n.Contains m → c ∈ m.children → n.Contains c

/-- The preorder lists the node and all that stands below it. -/
theorem mem_preorder_iff {n m : Node κ} : m ∈ n.preorder ↔ n.Contains m := by
  constructor
  · exact forall_preorder (fun _ ha _ hc => ha.child hc) n .self m
  · intro h
    induction h with
    | self => exact self_mem_preorder n
    | child _ hc ih => exact mem_preorder_trans ih (mem_preorder_of_child hc (self_mem_preorder _))

/-! ### Addresses -/

/-- The node at an address: at each number the one of the nodes directly below that has
this index. -/
def at? : Node κ → List Nat → Option (Node κ)
  | n, [] => some n
  | n, i :: address => n.children[i]?.bind fun c => c.at? address

/-- The addresses of a node and all below it, in preorder. -/
def addresses (n : Node κ) : List (List Nat) :=
  [] :: (List.finRange n.children.length).flatMap fun i =>
    (addresses n.children[i.val]).map (i.val :: ·)
termination_by n.tree.count
decreasing_by exact count_lt_of_child (List.getElem_mem _)

theorem at?_cons_of_lt {n : Node κ} {i : Nat} (h : i < n.children.length) (address : List Nat) :
    n.at? (i :: address) = n.children[i].at? address := by
  rw [at?, List.getElem?_eq_getElem h, Option.bind_some]

/-- Exactly the addresses at which there is a node are listed. -/
theorem mem_addresses_iff {n : Node κ} {address : List Nat} :
    address ∈ n.addresses ↔ (n.at? address).isSome := by
  induction n using below_induction generalizing address with
  | step n ih =>
    rw [addresses]
    cases address with
    | nil => simp [at?]
    | cons i address =>
      by_cases hi : i < n.children.length
      · rw [at?_cons_of_lt hi, ← ih _ (List.getElem_mem hi)]
        simp only [List.mem_cons, List.mem_flatMap, List.mem_map, reduceCtorEq, false_or]
        constructor
        · rintro ⟨j, -, _, hmem, heq⟩
          obtain ⟨rfl, rfl⟩ := List.cons.inj heq
          exact hmem
        · exact fun hmem => ⟨⟨i, hi⟩, List.mem_finRange _, address, hmem, rfl⟩
      · rw [at?, List.getElem?_eq_none (Nat.le_of_not_lt hi)]
        simp only [List.mem_cons, List.mem_flatMap, List.mem_map, reduceCtorEq, false_or]
        constructor
        · rintro ⟨j, -, _, -, heq⟩
          exact absurd ((List.cons.inj heq).1 ▸ j.isLt) hi
        · simp

/-- Addresses are listed in their order, none of them twice. -/
theorem pairwise_addresses (n : Node κ) : n.addresses.Pairwise (· < ·) := by
  induction n using below_induction with
  | step n ih =>
    rw [addresses, List.pairwise_cons]
    constructor
    · intro address hmem
      obtain ⟨i, -, hi⟩ := List.mem_flatMap.1 hmem
      obtain ⟨rest, -, rfl⟩ := List.mem_map.1 hi
      exact List.nil_lt_cons _ _
    · rw [List.pairwise_flatMap]
      constructor
      · intro i _
        refine (ih _ (List.getElem_mem i.isLt)).map _ fun a b hab => ?_
        exact List.cons_lt_cons_iff.2 (.inr ⟨rfl, hab⟩)
      · refine (List.pairwise_lt_finRange _).imp fun hij a ha b hb => ?_
        obtain ⟨_, -, rfl⟩ := List.mem_map.1 ha
        obtain ⟨_, -, rfl⟩ := List.mem_map.1 hb
        exact List.cons_lt_cons_iff.2 (.inl hij)

/-- The preorder lists the nodes by their addresses. -/
theorem map_at?_addresses (n : Node κ) : n.addresses.map n.at? = n.preorder.map some := by
  induction n using below_induction with
  | step n ih =>
    have hbelow (i : Fin n.children.length) :
        ((addresses n.children[i.val]).map (i.val :: ·)).map n.at?
          = n.children[i.val].preorder.map some := by
      rw [List.map_map, ← ih _ (List.getElem_mem i.isLt)]
      exact List.map_congr_left fun address _ => at?_cons_of_lt i.isLt address
    rw [addresses, preorder_eq, List.map_cons, List.map_cons, List.map_flatMap, List.map_flatMap]
    simp only [hbelow]
    rw [at?]
    conv_rhs => rw [← List.map_getElem_finRange n.children]
    rw [List.flatMap_map]

end ElementLens.Syntax.Node
