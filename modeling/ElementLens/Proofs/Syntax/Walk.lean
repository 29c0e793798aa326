/-
Walks visit nodes in preorder.

The cursor of a walk has visited some nodes and has others before it: those at and
below it, then those behind it and behind the nodes above. After a visit it moves on to
the next of them. So the walk is the plain recursion over the list of nodes, which ends
at the first visit that fails:

* **`Cursor.preorder_firstChild?`**, **`Cursor.afterwards_eq`** — what is still to be
  visited before and after a move;
* **`Node.walk_eq_visitAll`** — the walk and the list of nodes;
* **`Node.walk_in_preorder`** — which nodes are visited, and with which result.
-/
import ElementLens.Proofs.Syntax.Preorder
import ElementLens.Syntax.Cursor

namespace ElementLens

/-- If something is found exactly at what passes a test, then what is found stands for what
passes, one for one and in order. -/
theorem forall₂_filterMap {α β : Type} {f : α → Option β} {p : α → Bool} {r : α → β → Prop}
    (hp : ∀ a, (f a).isSome = p a) (hr : ∀ a b, f a = some b → r a b) (as : List α) :
    List.Forall₂ r (as.filter p) (as.filterMap f) := by
  induction as with
  | nil => exact .nil
  | cons a as ih =>
    cases hf : f a with
    | none =>
      rw [List.filter_cons_of_neg (by simp [← hp, hf]), List.filterMap_cons_none hf]
      exact ih
    | some b =>
      rw [List.filter_cons_of_pos (by simp [← hp, hf]), List.filterMap_cons_some hf]
      exact .cons (hr a b hf) ih

end ElementLens

namespace ElementLens.Syntax

variable {κ σ ε : Type}

/-! ### Visiting listed nodes -/

namespace Node

/-- Visits listed nodes one after the other, up to the first visit that
fails. -/
def visitAll (visit : σ → Node κ → Except ε σ) (state : σ) : List (Node κ) → σ × Option ε
  | [] => (state, none)
  | n :: ns =>
    match visit state n with
    | .error e => (state, some e)
    | .ok next => visitAll visit next ns

/-- If visits fail at certain nodes only, the last state is made by the visits
before the first of them. -/
theorem visitAll_fst {visit : σ → Node κ → Except ε σ} {fails : Node κ → Bool}
    {next : σ → Node κ → σ} (hfails : ∀ s n, fails n = true → ∃ e, visit s n = .error e)
    (hnext : ∀ s n, fails n = false → visit s n = .ok (next s n)) (state : σ)
    (ns : List (Node κ)) :
    (visitAll visit state ns).1 = (ns.takeWhile fun n => !fails n).foldl next state := by
  induction ns generalizing state with
  | nil => rfl
  | cons n ns ih =>
    rw [visitAll]
    cases hn : fails n with
    | true =>
      obtain ⟨e, he⟩ := hfails state n hn
      simp only [he]
      rw [List.takeWhile_cons_of_neg (by simp [hn])]
      rfl
    | false =>
      simp only [hnext state n hn]
      rw [List.takeWhile_cons_of_pos (by simp [hn]), List.foldl_cons, ih]

theorem visitAll_of_ok {visit : σ → Node κ → Except ε σ} {next : σ → Node κ → σ}
    (h : ∀ s n, visit s n = .ok (next s n)) (state : σ) (ns : List (Node κ)) :
    visitAll visit state ns = (ns.foldl next state, none) := by
  induction ns generalizing state with
  | nil => rfl
  | cons n ns ih =>
    rw [visitAll]
    simp only [h]
    rw [ih, List.foldl_cons]

/-- If it depends on the node alone whether a visit fails, a walk ends early if and
only if there is such a node. -/
theorem visitAll_snd_eq_none_iff {visit : σ → Node κ → Except ε σ} {fails : Node κ → Prop}
    (h : ∀ s n, (∃ e, visit s n = .error e) ↔ fails n) (state : σ) (ns : List (Node κ)) :
    (visitAll visit state ns).2 = none ↔ ∀ n ∈ ns, ¬ fails n := by
  induction ns generalizing state with
  | nil => simp [visitAll]
  | cons n ns ih =>
    rw [visitAll, List.forall_mem_cons, ← h state n]
    cases hvisit : visit state n with
    | error e => simp
    | ok next => simp [ih]

/-- What a visit keeps, a walk keeps, however far it goes. -/
theorem visitAll_induction {visit : σ → Node κ → Except ε σ} (holds : σ → Prop)
    (h : ∀ s n s', holds s → visit s n = .ok s' → holds s') (state : σ) (ns : List (Node κ))
    (hstate : holds state) : holds (visitAll visit state ns).1 := by
  induction ns generalizing state with
  | nil => exact hstate
  | cons n ns ih =>
    rw [visitAll]
    cases hvisit : visit state n with
    | error e => exact hstate
    | ok next => exact ih next (h state n next hstate hvisit)

/-- What is found at the nodes, the last thing first, is in their order when
turned round. -/
theorem foldl_found {β : Type} (f : Node κ → Option β) (found : List β) (ns : List (Node κ)) :
    (ns.foldl (fun found n => (f n).toList ++ found) found).reverse
      = found.reverse ++ ns.filterMap f := by
  induction ns generalizing found with
  | nil => simp
  | cons n ns ih =>
    rw [List.foldl_cons, ih]
    cases hn : f n <;> simp [hn]

/-- Visits of nodes one after the other, none of which fails, from one state to
another. -/
inductive Passes (visit : σ → Node κ → Except ε σ) : σ → List (Node κ) → σ → Prop
  | nil (state : σ) : Passes visit state [] state
  | cons {state next last : σ} {n : Node κ} {ns : List (Node κ)} :
    visit state n = .ok next → Passes visit next ns last → Passes visit state (n :: ns) last

theorem Passes.exists_ok {visit : σ → Node κ → Except ε σ} {state last : σ} {ns : List (Node κ)}
    (h : Passes visit state ns last) : ∀ n ∈ ns, ∃ s next, visit s n = .ok next := by
  induction h with
  | nil => simp
  | cons hok _ ih => exact List.forall_mem_cons.2 ⟨⟨_, _, hok⟩, ih⟩

theorem visitAll_eq_none_iff {visit : σ → Node κ → Except ε σ} {state last : σ}
    {ns : List (Node κ)} :
    visitAll visit state ns = (last, none) ↔ Passes visit state ns last := by
  induction ns generalizing state with
  | nil =>
    rw [visitAll, Prod.mk.injEq]
    constructor
    · rintro ⟨rfl, -⟩
      exact .nil _
    · intro h
      cases h
      exact ⟨rfl, rfl⟩
  | cons n ns ih =>
    rw [visitAll]
    cases hvisit : visit state n with
    | error e =>
      refine ⟨fun h => absurd h (by simp), fun h => ?_⟩
      cases h with
      | cons hok _ => exact absurd (hvisit.symm.trans hok) (by simp)
    | ok next =>
      refine ⟨fun h => .cons hvisit (ih.1 h), fun h => ?_⟩
      cases h with
      | cons hok hrest =>
        obtain rfl := Except.ok.inj (hvisit.symm.trans hok)
        exact ih.2 hrest

theorem visitAll_eq_some_iff {visit : σ → Node κ → Except ε σ} {state last : σ} {e : ε}
    {ns : List (Node κ)} :
    visitAll visit state ns = (last, some e)
      ↔ ∃ before m after, ns = before ++ m :: after ∧ Passes visit state before last
        ∧ visit last m = .error e := by
  induction ns generalizing state with
  | nil => simp [visitAll]
  | cons n ns ih =>
    rw [visitAll]
    cases hvisit : visit state n with
    | error e' =>
      constructor
      · intro h
        obtain ⟨rfl, he⟩ := Prod.mk.inj h
        exact ⟨[], n, ns, rfl, .nil _, Option.some.inj he ▸ hvisit⟩
      · rintro ⟨before, m, after, heq, hpasses, hfails⟩
        cases hpasses with
        | nil =>
          obtain ⟨rfl, -⟩ := List.cons.inj heq
          rw [Except.error.inj (hvisit.symm.trans hfails)]
        | cons hok _ =>
          obtain ⟨rfl, -⟩ := List.cons.inj heq
          exact absurd (hvisit.symm.trans hok) (by simp)
    | ok next =>
      simp only
      rw [ih]
      constructor
      · rintro ⟨before, m, after, rfl, hpasses, hfails⟩
        exact ⟨n :: before, m, after, rfl, .cons hvisit hpasses, hfails⟩
      · rintro ⟨before, m, after, heq, hpasses, hfails⟩
        cases hpasses with
        | nil =>
          obtain ⟨rfl, -⟩ := List.cons.inj heq
          exact absurd (hvisit.symm.trans hfails) (by simp)
        | cons hok hrest =>
          obtain ⟨rfl, rfl⟩ := List.cons.inj heq
          obtain rfl := Except.ok.inj (hvisit.symm.trans hok)
          exact ⟨_, m, after, rfl, hrest, hfails⟩

end Node

/-! ### Moving the cursor -/

namespace Cursor

/-- The nodes that are visited after those at and below the cursor. -/
def afterwards : Cursor κ → List (Node κ)
  | root _ => []
  | child _ behind above => behind.flatMap Node.preorder ++ above.afterwards

theorem preorder_firstChild? {c below : Cursor κ} (h : c.firstChild? = some below) :
    c.node.preorder ++ c.afterwards = c.node :: (below.node.preorder ++ below.afterwards) := by
  obtain ⟨n, ns, hchildren, rfl⟩ := children_of_firstChild? h
  rw [Node.preorder_eq, hchildren]
  simp [afterwards]

theorem preorder_of_firstChild?_eq_none {c : Cursor κ} (h : c.firstChild? = none) :
    c.node.preorder = [c.node] := by
  unfold firstChild? at h
  split at h
  · next hchildren => rw [Node.preorder_eq, hchildren, List.flatMap_nil]
  · exact absurd h (by simp)

/-- The way out of a node leads to what is visited next, and there is none if nothing is
left. -/
theorem afterwards_eq (c : Cursor κ) :
    c.afterwards = match c.leave? with
      | some next => next.node.preorder ++ next.afterwards
      | none => [] := by
  induction c with
  | root n => rfl
  | child n ns above ih =>
    cases ns with
    | nil => exact ih
    | cons m ns => simp [leave?, nextSibling?, afterwards]

/-- The walk visits what is at and below the cursor, and then the rest. -/
theorem walk_eq_visitAll (visit : σ → Node κ → Except ε σ) (state : σ) (c : Cursor κ) :
    c.walk visit state = Node.visitAll visit state (c.node.preorder ++ c.afterwards) := by
  fun_induction walk visit state c with
  | case1 state c e hfails =>
    rw [Node.preorder_eq, List.cons_append, Node.visitAll]
    simp only [hfails]
  | case2 state c next hok below hbelow ih =>
    rw [preorder_firstChild? hbelow, Node.visitAll]
    simp only [hok]
    exact ih
  | case3 state c next hok hleaf after hafter ih =>
    rw [preorder_of_firstChild?_eq_none hleaf, afterwards_eq, List.singleton_append, Node.visitAll]
    simp only [hok, hafter]
    exact ih
  | case4 state c next hok hleaf hend =>
    rw [preorder_of_firstChild?_eq_none hleaf, afterwards_eq, List.singleton_append, Node.visitAll]
    simp only [hok, hend]
    rfl

end Cursor

namespace Node

/-- The walk visits the nodes in preorder. -/
theorem walk_eq_visitAll (visit : σ → Node κ → Except ε σ) (state : σ) (n : Node κ) :
    walk visit state n = visitAll visit state n.preorder := by
  rw [walk, Cursor.walk_eq_visitAll, Cursor.afterwards, List.append_nil, Cursor.node_root]

/-- **A walk visits the nodes of a tree in preorder**, up to the first visit that fails.
The preorder is the plain recursion, and it lists all nodes in the order of their
addresses, each once. A walk ends without an error exactly if all nodes can be visited
one after the other; it ends with an error exactly if the visit of some node fails with
it, after all nodes before that one were visited. -/
theorem walk_in_preorder (visit : σ → Node κ → Except ε σ) (state : σ) (n : Node κ) :
    n.preorder = n :: n.children.flatMap preorder
    ∧ n.preorder.map some = n.addresses.map n.at?
    ∧ n.addresses.Pairwise (· < ·)
    ∧ (∀ address, address ∈ n.addresses ↔ (n.at? address).isSome)
    ∧ (∀ last, walk visit state n = (last, none) ↔ Passes visit state n.preorder last)
    ∧ ∀ last e, walk visit state n = (last, some e)
      ↔ ∃ before m after, n.preorder = before ++ m :: after ∧ Passes visit state before last
        ∧ visit last m = .error e := by
  rw [walk_eq_visitAll]
  exact ⟨n.preorder_eq, n.map_at?_addresses.symm, n.pairwise_addresses,
    fun _ => mem_addresses_iff, fun _ => visitAll_eq_none_iff, fun _ _ => visitAll_eq_some_iff⟩

end Node

end ElementLens.Syntax
