/-
Comments in scripts.

Comments are leaves of their own and may stand between any two tokens. Taking
them out changes where the tokens stand, but not what a member of a class or an
entry of an object consists of:

* **`Syntax.Tree.uncommented`** — a tree without its comments;
* **`ScriptNode.bare`** — a node taken by itself, without its comments;
* **`ScriptNode.map_bare_steps`** — what stands directly below such a node, and
* **`ScriptNode.map_bare_keyValue?`**, **`ScriptNode.map_bare_methodName?`** —
  the names and values that are read from it.
-/
import Mathlib.Data.List.Basic
import ElementLens.Component.Definition
import ElementLens.Proofs.Syntax.Places

namespace ElementLens

open Syntax (Node)

namespace Script.Kind

/-- Whether a leaf of this kind is a comment. -/
def isComment : Kind → Bool
  | .terminal .comment | .terminal .markupComment => true
  | _ => false

/-- Whether a node of this kind is a single token. No comment stands in a
token; a string is one. -/
def isToken : Kind → Bool
  | .construct c => c == .string
  | _ => true

end Script.Kind

/-- A tree without the comments between its tokens. -/
def Syntax.Tree.uncommented : Syntax.Tree Script.Kind → Syntax.Tree Script.Kind
  | .leaf k s => .leaf k s
  | .node k w ts =>
    if k.isToken then .node k w ts
    else .branch k ((ts.filter fun t => !t.kind.isComment).map uncommented)

namespace Syntax.Tree

variable {t : Syntax.Tree Script.Kind}

@[simp] theorem kind_uncommented (t : Syntax.Tree Script.Kind) : t.uncommented.kind = t.kind := by
  cases t with
  | leaf k s => rw [uncommented]
  | node k w ts =>
    rw [uncommented]
    split <;> rfl

theorem uncommented_of_isToken (h : t.kind.isToken = true) : t.uncommented = t := by
  cases t with
  | leaf k s => rw [uncommented]
  | node k w ts => rw [uncommented, if_pos (show k.isToken = true from h)]

theorem children_uncommented (h : t.kind.isToken = false) :
    t.uncommented.children = (t.children.filter fun c => !c.kind.isComment).map uncommented := by
  cases t with
  | leaf k s => rw [uncommented]; rfl
  | node k w ts =>
    rw [uncommented, if_neg (by rw [show k.isToken = false from h]; decide)]
    rfl

theorem filter_comments_uncommented (ts : List (Syntax.Tree Script.Kind)) :
    ((ts.filter fun t => !t.kind.isComment).map uncommented).filter (fun t => !t.kind.isComment)
      = (ts.filter fun t => !t.kind.isComment).map uncommented := by
  rw [List.filter_eq_self]
  intro bare hbare
  obtain ⟨t, ht, rfl⟩ := List.mem_map.1 hbare
  rw [kind_uncommented]
  exact (List.mem_filter.1 ht).2

/-- A tree without comments stays as it is. -/
@[simp] theorem uncommented_uncommented (t : Syntax.Tree Script.Kind) :
    t.uncommented.uncommented = t.uncommented := by
  induction t using uncommented.induct with
  | case1 k s => rw [uncommented, uncommented]
  | case2 k w ts hk => rw [uncommented, if_pos hk, uncommented, if_pos hk]
  | case3 k w ts hk ih =>
    rw [uncommented, if_neg hk, branch, uncommented, if_neg hk, filter_comments_uncommented,
      List.map_map, List.map_congr_left (g := uncommented)]
    · rfl
    · intro t ht
      exact ih t (List.mem_filter.1 ht).1

end Syntax.Tree

namespace ScriptNode

/-- A node taken by itself, without its comments. -/
def bare (n : ScriptNode) : ScriptNode := ⟨0, n.tree.uncommented⟩

/-- What stands directly below a node, comments aside. -/
def steps (n : ScriptNode) : List ScriptNode :=
  (Node.children n).filter fun c => !c.kind.isComment

variable {n m : ScriptNode}

@[simp] theorem kind_bare (n : ScriptNode) : Node.kind n.bare = Node.kind n :=
  Syntax.Tree.kind_uncommented n.tree

theorem text_bare (h : (Node.kind n).isToken = true) : Node.text n.bare = Node.text n := by
  have htree : n.tree.uncommented = n.tree := Syntax.Tree.uncommented_of_isToken h
  simp only [bare, Node.text, htree]

/-! ### Lists of nodes -/

section Lists

variable {ns : List ScriptNode} {p : ScriptNode → Bool}

theorem map_bare_filter (hp : ∀ n, p n.bare = p n) :
    (ns.filter p).map bare = (ns.map bare).filter p := by
  rw [List.filter_map]
  exact congrArg _ (List.filter_congr fun n _ => (hp n).symm)

theorem map_bare_find? (hp : ∀ n, p n.bare = p n) :
    (ns.find? p).map bare = (ns.map bare).find? p := by
  rw [List.find?_map]
  exact congrArg _ (congrArg (ns.find? ·) (funext fun n => (hp n).symm))

theorem filterMap_map_bare {β : Type} {f : ScriptNode → Option β} (hf : ∀ n, f n.bare = f n) :
    (ns.map bare).filterMap f = ns.filterMap f := by
  rw [List.filterMap_map]
  exact congrArg (ns.filterMap ·) (funext hf)

end Lists

/-! ### Children -/

theorem map_tree_steps (n : ScriptNode) :
    (steps n).map Node.tree = n.tree.children.filter fun t => !t.kind.isComment := by
  rw [← Node.map_tree_children, List.filter_map]
  rfl

theorem map_bare_eq (ns : List ScriptNode) :
    ns.map bare = (ns.map Node.tree).map fun t => ⟨0, t.uncommented⟩ := by
  rw [List.map_map]
  rfl

/-- Without comments the same stands directly below a construct. -/
theorem map_bare_steps (h : (Node.kind n).isToken = false) :
    (steps n.bare).map bare = (steps n).map bare := by
  rw [map_bare_eq, map_bare_eq, map_tree_steps, map_tree_steps, bare,
    Syntax.Tree.children_uncommented h, Syntax.Tree.filter_comments_uncommented, List.map_map]
  exact List.map_congr_left fun t _ => by simp

theorem filter_steps {p : ScriptNode → Bool}
    (h : ∀ c : ScriptNode, (Node.kind c).isComment = true → p c = false) :
    (steps n).filter p = (Node.children n).filter p := by
  rw [steps, List.filter_filter]
  refine List.filter_congr fun c _ => ?_
  cases hc : (Node.kind c).isComment with
  | false => simp
  | true => simp [h c hc]

/-- What is collected below a construct, comments aside, is there without them as well. -/
theorem filterMap_children_bare {β : Type} {f : ScriptNode → Option β} (hf : ∀ c, f c.bare = f c)
    (hcomment : ∀ c : ScriptNode, (Node.kind c).isComment = true → f c = none)
    (h : (Node.kind n).isToken = false) :
    (Node.children n.bare).filterMap f = (Node.children n).filterMap f := by
  have hsteps (m : ScriptNode) : (Node.children m).filterMap f = ((steps m).map bare).filterMap f := by
    rw [filterMap_map_bare hf, steps, List.filterMap_filter]
    refine List.filterMap_congr fun c _ => ?_
    cases hc : (Node.kind c).isComment with
    | false => rfl
    | true => exact hcomment c hc
  rw [hsteps, hsteps, map_bare_steps h]

theorem find?_steps {p : ScriptNode → Bool}
    (h : ∀ c : ScriptNode, (Node.kind c).isComment = true → p c = false) :
    (steps n).find? p = (Node.children n).find? p := by
  rw [← List.head?_filter, ← List.head?_filter, filter_steps h]

/-- A comment is of no other kind. -/
theorem kind_beq_of_isComment {k : Script.Kind} (hk : k.isComment = false) {c : ScriptNode}
    (hc : (Node.kind c).isComment = true) : (Node.kind c == k) = false :=
  beq_eq_false_iff_ne.2 fun heq => absurd hc (by simp [heq, hk])

theorem isTrivia_of_isComment {k : Script.Kind} (h : k.isComment = true) : k.isTrivia = true := by
  unfold Script.Kind.isComment at h
  split at h
  · rfl
  · rfl
  · exact absurd h (by simp)

theorem map_bare_tokens (h : (Node.kind n).isToken = false) :
    (tokens n.bare).map bare = (tokens n).map bare := by
  have htokens (m : ScriptNode) : tokens m = (steps m).filter fun c => !c.kind.isTrivia :=
    (filter_steps fun c hc => by simp [isTrivia_of_isComment hc]).symm
  have hkind (m : ScriptNode) : (!(Node.kind m.bare).isTrivia) = !(Node.kind m).isTrivia := by
    rw [kind_bare]
  rw [htokens, htokens, map_bare_filter hkind, map_bare_filter hkind, map_bare_steps h]

theorem map_bare_child? {k : Script.Kind} (h : (Node.kind n).isToken = false)
    (hk : k.isComment = false) : (n.bare.child? k).map bare = (n.child? k).map bare := by
  have hchild (m : ScriptNode) : m.child? k = (steps m).find? fun c => c.kind == k := by
    rw [child?, find?_steps fun c hc => kind_beq_of_isComment hk hc]
  have hkind (m : ScriptNode) : (Node.kind m.bare == k) = (Node.kind m == k) := by
    rw [kind_bare]
  rw [hchild, hchild, map_bare_find? hkind, map_bare_find? hkind, map_bare_steps h]

/-! ### Names and values -/

@[simp] theorem keyText?_bare (n : ScriptNode) : n.bare.keyText? = n.keyText? := by
  unfold keyText?
  rw [kind_bare]
  split
  · rename_i hkind
    rw [text_bare (by rw [hkind]; rfl)]
  · rename_i hkind
    rw [text_bare (by rw [hkind]; rfl)]
  · rename_i hkind
    rw [text_bare (by rw [hkind]; rfl)]
  · rfl

theorem map_bare_methodName? (h : (Node.kind n).isToken = false) :
    n.bare.methodName?.map bare = n.methodName?.map bare := by
  have hname (m : ScriptNode) : m.methodName?.map bare
      = (((tokens m).map bare).takeWhile fun c => c.kind != .construct .parameters).getLast? := by
    rw [methodName?, List.takeWhile_map, List.getLast?_map]
    simp only [Function.comp_def, kind_bare]
  rw [hname, hname, map_bare_tokens h]

/-- The text of the name of a method. -/
theorem methodName?_bind_bare (h : (Node.kind n).isToken = false) :
    n.bare.methodName?.bind keyText? = n.methodName?.bind keyText? := by
  have hname (m : ScriptNode) :
      m.methodName?.bind keyText? = (m.methodName?.map bare).bind keyText? := by
    simp [Option.bind_map]
  rw [hname, hname n, map_bare_methodName? h]

theorem map_bare_keyValue? (h : (Node.kind n).isToken = false) :
    n.bare.keyValue?.map (Prod.map bare bare) = n.keyValue?.map (Prod.map bare bare) := by
  have hpair (m : ScriptNode) : m.keyValue?.map (Prod.map bare bare)
      = ((tokens m).map bare)[0]?.bind fun key =>
          ((tokens m).map bare)[2]?.map fun value => (key, value) := by
    unfold keyValue?
    rcases tokens m with _ | ⟨key, _ | ⟨colon, _ | ⟨value, rest⟩⟩⟩ <;> rfl
  rw [hpair, hpair, map_bare_tokens h]

/-- The text of the key of an entry. -/
theorem keyValue?_bind_bare (h : (Node.kind n).isToken = false) :
    (n.bare.keyValue?.bind fun pair => pair.1.keyText?)
      = n.keyValue?.bind fun pair => pair.1.keyText? := by
  have hkey (m : ScriptNode) : (m.keyValue?.bind fun pair => pair.1.keyText?)
      = (m.keyValue?.map (Prod.map bare bare)).bind fun pair => pair.1.keyText? := by
    simp [Option.bind_map]
  rw [hkey, hkey n, map_bare_keyValue? h]

end ScriptNode

end ElementLens
