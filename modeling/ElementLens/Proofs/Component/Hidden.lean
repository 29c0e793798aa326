/-
Comments that hide properties.

The object of the properties is looked for as the first part of the return
statement, and inside of parentheses as the first part between them. A comment
is a part as well. So one in front of the expression, at any of these levels, is
taken for it, and the class has no properties. All other comments, and those
inside the object, leave the properties as they are.

* **`ScriptNode.Strips`** — a node is another one without its comments;
* **`ScriptNode.Wraps`** — an expression is an object within parentheses;
* **`ScriptNode.unwrap_eq`** — whether the object is found;
* **`content_eq_iff_not_hidden`** — the properties of a class with comments and
  those of the same class without.
-/
import ElementLens.Proofs.Component.Options

namespace ElementLens

open Syntax (Node)

/-- What is found first in a list has its counterpart in a related list. -/
theorem exists_find?_of_forall₂ {α β : Type} {r : α → β → Prop} {p : α → Bool} {q : β → Bool}
    {as : List α} {bs : List β} (h : List.Forall₂ r as bs)
    (hpq : ∀ a ∈ as, ∀ b, r a b → p a = q b) {a : α} (ha : as.find? p = some a) :
    ∃ b, bs.find? q = some b ∧ r a b := by
  induction h with
  | nil => exact absurd ha (by simp)
  | @cons first first' as bs hfirst _ ih =>
    have hq := hpq first List.mem_cons_self first' hfirst
    cases hp : p first with
    | true =>
      rw [List.find?_cons_of_pos hp] at ha
      obtain rfl := Option.some.inj ha
      exact ⟨first', List.find?_cons_of_pos (hq ▸ hp), hfirst⟩
    | false =>
      rw [List.find?_cons_of_neg (by simp [hp])] at ha
      rw [List.find?_cons_of_neg (by simp [← hq, hp])]
      exact ih (fun a ha => hpq a (List.mem_cons_of_mem first ha)) ha

namespace ScriptNode

/-! ### Nodes without their comments -/

/-- The second node is the first one without its comments, wherever it stands. -/
def Strips (n m : ScriptNode) : Prop := m.tree = n.tree.uncommented

namespace Strips

variable {n m c : ScriptNode}

theorem bare_eq (h : Strips n m) : m.bare = n.bare := by
  rw [bare, bare, h, Syntax.Tree.uncommented_uncommented]

theorem kind_eq (h : Strips n m) : Node.kind m = Node.kind n := by
  rw [← kind_bare m, h.bare_eq, kind_bare]

/-- Below a node without comments stands what stands below the other, without comments. -/
theorem children (h : Strips n m) (hn : (Node.kind n).isToken = false) :
    List.Forall₂ Strips (steps n) (Node.children m) := by
  have htrees : (steps n).map (fun c => c.tree.uncommented) = (Node.children m).map Node.tree := by
    rw [Node.map_tree_children, h, Syntax.Tree.children_uncommented hn, ← map_tree_steps, List.map_map]
    rfl
  rw [← List.forall₂_eq_eq_eq, List.forall₂_map_left_iff, List.forall₂_map_right_iff] at htrees
  exact htrees.imp fun _ _ heq => heq.symm

/-- What is found below a node is found below it without comments as well. -/
theorem find? {p q : ScriptNode → Bool} (h : Strips n m) (hn : (Node.kind n).isToken = false)
    (hcomment : ∀ c : ScriptNode, (Node.kind c).isComment = true → p c = false)
    (hpq : ∀ a b, (Node.kind a).isComment = false → Strips a b → p a = q b)
    (hc : (Node.children n).find? p = some c) :
    ∃ c', (Node.children m).find? q = some c' ∧ Strips c c' := by
  rw [← find?_steps hcomment] at hc
  exact exists_find?_of_forall₂ (h.children hn)
    (fun a ha b hab => hpq a b (by simpa using (List.mem_filter.1 ha).2) hab) hc

theorem child? {k : Script.Kind} (h : Strips n m) (hn : (Node.kind n).isToken = false)
    (hk : k.isComment = false) (hc : n.child? k = some c) :
    ∃ c', m.child? k = some c' ∧ Strips c c' := by
  refine h.find? hn (fun c hc => kind_beq_of_isComment hk hc) (fun a b _ hab => ?_) hc
  rw [hab.kind_eq]

theorem part? {p : ScriptNode → Bool} (h : Strips n m) (hn : (Node.kind n).isToken = false)
    (hp : ∀ c, p c.bare = p c)
    (hcomment : ∀ c : ScriptNode, (Node.kind c).isComment = true → p c = false)
    (hc : n.parts.find? p = some c) : ∃ c', m.parts.find? p = some c' ∧ Strips c c' := by
  rw [parts, List.find?_filter] at hc ⊢
  refine h.find? hn (fun c hc => ?_) (fun a b _ hab => ?_) hc
  · simp [hcomment c hc]
  · rw [hab.kind_eq, ← hp a, ← hp b, hab.bare_eq]

end Strips

theorem isStatic_bare {n : ScriptNode} (h : (Node.kind n).isToken = false) :
    n.bare.isStatic = n.isStatic := by
  have hsome {k : Script.Kind} (hk : k.isComment = false) :
      (n.bare.child? k).isSome = (n.child? k).isSome := by
    have heq := congrArg Option.isSome (map_bare_child? h hk)
    rwa [Option.isSome_map, Option.isSome_map] at heq
  rw [isStatic, isStatic, hsome rfl, hsome rfl]

theorem declaresProperties_bare (n : ScriptNode) :
    n.bare.declaresProperties = n.declaresProperties := by
  unfold declaresProperties
  rw [kind_bare]
  by_cases hkind : Node.kind n = .construct .method
  · have hn : (Node.kind n).isToken = false := by rw [hkind]; rfl
    rw [isStatic_bare hn, methodName?_bind_bare hn]
  · rw [beq_eq_false_iff_ne.2 hkind, Bool.false_and, Bool.false_and, Bool.false_and,
      Bool.false_and]

theorem kind_of_declaresProperties {n : ScriptNode} (h : n.declaresProperties = true) :
    Node.kind n = .construct .method := by
  simp only [declaresProperties, Bool.and_eq_true, beq_iff_eq] at h
  exact h.1.1

/-! ### Objects within parentheses -/

/-- The expression in a return statement or between parentheses: the first part that is no
comment. -/
def operand? (n : ScriptNode) : Option ScriptNode :=
  n.parts.find? fun c => !c.kind.isComment

/-- Whether the first part is a comment. -/
def hides (n : ScriptNode) : Bool :=
  n.parts.head?.any fun c => c.kind.isComment

/-- An expression is an object within parentheses, the outermost first. -/
inductive Wraps (object : ScriptNode) : ScriptNode → List ScriptNode → Prop
  | itself : Node.kind object = .construct .object → Wraps object object []
  | within {n m : ScriptNode} {levels : List ScriptNode} :
    Node.kind n = .construct .parenthesized → n.operand? = some m → Wraps object m levels →
      Wraps object n (n :: levels)

theorem unwrap_object {n : ScriptNode} (h : Node.kind n = .construct .object) :
    unwrap n = some n := by
  rw [unwrap]
  simp only [h]

theorem unwrap_parenthesized {n : ScriptNode} (h : Node.kind n = .construct .parenthesized) :
    unwrap n = n.parts.head?.bind unwrap := by
  rw [unwrap]
  simp only [h]
  split
  · rename_i hhead
    rw [hhead]
    rfl
  · rename_i hhead
    rw [hhead, Option.bind_some]

theorem unwrap_comment {n : ScriptNode} (h : (Node.kind n).isComment = true) :
    unwrap n = none := by
  rw [unwrap]
  split <;> simp_all [Script.Kind.isComment]

/-- A comment in front is taken for the expression. -/
theorem head?_bind_unwrap (n : ScriptNode) :
    n.parts.head?.bind unwrap = if n.hides then none else n.operand?.bind unwrap := by
  rw [hides, operand?]
  rcases n.parts with _ | ⟨first, rest⟩
  · rfl
  · cases hfirst : (Node.kind first).isComment with
    | true => simp [hfirst, unwrap_comment hfirst]
    | false => simp [hfirst]

/-- The object within parentheses is found if no comment comes first between them. -/
theorem unwrap_eq {object value : ScriptNode} {levels : List ScriptNode}
    (h : Wraps object value levels) :
    unwrap value = if levels.any hides then none else some object := by
  induction h with
  | itself hkind => rw [unwrap_object hkind]; rfl
  | @within n m levels hkind hoperand _ ih =>
    rw [unwrap_parenthesized hkind, head?_bind_unwrap, hoperand, Option.bind_some, ih,
      List.any_cons]
    cases n.hides <;> rfl

/-- Without comments the expression comes first. -/
theorem Strips.operand? {n m c : ScriptNode} (h : Strips n m) (hn : (Node.kind n).isToken = false)
    (hc : n.operand? = some c) : ∃ c', m.parts.head? = some c' ∧ Strips c c' := by
  rw [ScriptNode.operand?, parts, List.find?_filter] at hc
  rw [parts, List.head?_filter]
  refine h.find? hn (fun c hc => by simp [hc]) (fun a b ha hab => ?_) hc
  rw [ha, hab.kind_eq]
  simp

/-- Without comments the object is found. -/
theorem Strips.unwrap {object value value' : ScriptNode} {levels : List ScriptNode}
    (h : Strips value value') (hwraps : Wraps object value levels) :
    ∃ object', ScriptNode.unwrap value' = some object' ∧ Strips object object' := by
  induction hwraps generalizing value' with
  | itself hkind => exact ⟨value', unwrap_object (h.kind_eq.trans hkind), h⟩
  | within hkind hoperand _ ih =>
    obtain ⟨m', hm', hstrips⟩ := h.operand? (by rw [hkind]; rfl) hoperand
    rw [unwrap_parenthesized (h.kind_eq.trans hkind), hm', Option.bind_some]
    exact ih hstrips

/-! ### Objects that classes return -/

/-- A class returns an object from its method `properties`. The levels are the return statement
and the parentheses around the object. -/
inductive Returns (declaration object : ScriptNode) : List ScriptNode → Prop
  | intro {body method block statement value : ScriptNode} {levels : List ScriptNode} :
    declaration.child? (.construct .classBody) = some body →
      body.parts.find? declaresProperties = some method →
      method.child? (.construct .block) = some block →
      block.parts.find? (fun s => s.kind == .construct .returnStatement) = some statement →
      statement.operand? = some value → Wraps object value levels →
      Returns declaration object (statement :: levels)

/-- A class is seen to return an object if at none of the levels a comment comes first. -/
theorem literal?_eq {declaration object : ScriptNode} {levels : List ScriptNode}
    (h : Returns declaration object levels) :
    declaration.literal? = if levels.any hides then none else some object := by
  obtain @⟨body, method, block, statement, value, levels, hbody, hmethod, hblock, hstatement, hvalue,
    hwraps⟩ := h
  have hreturned : returnedObject? method = statement.parts.head?.bind ScriptNode.unwrap := by
    rw [returnedObject?, hblock]
    simp only [Option.bind_eq_bind, Option.bind_some, hstatement]
  rw [literal?, hbody, Option.bind_some, hmethod, Option.bind_some, hreturned, head?_bind_unwrap,
    hvalue, Option.bind_some, unwrap_eq hwraps, List.any_cons]
  cases statement.hides <;> rfl

/-- Without comments the object is seen. -/
theorem Strips.literal? {declaration declaration' object : ScriptNode} {levels : List ScriptNode}
    (h : Strips declaration declaration') (hkind : Node.kind declaration = .construct .classDeclaration)
    (hreturns : Returns declaration object levels) :
    ∃ object', declaration'.literal? = some object' ∧ Strips object object' := by
  obtain @⟨body, method, block, statement, value, levels, hbody, hmethod, hblock, hstatement, hvalue,
    hwraps⟩ := hreturns
  have hbodyKind : Node.kind body = .construct .classBody := by simpa using List.find?_some hbody
  have hmethodKind := kind_of_declaresProperties (List.find?_some hmethod)
  have hblockKind : Node.kind block = .construct .block := by simpa using List.find?_some hblock
  have hstatementKind : Node.kind statement = .construct .returnStatement := by
    simpa using List.find?_some hstatement
  have hcomment (c : ScriptNode) (hc : (Node.kind c).isComment = true) :
      c.declaresProperties = false := by
    by_contra hdeclares
    rw [kind_of_declaresProperties (by simpa using hdeclares)] at hc
    exact absurd hc (by decide)
  -- look-ups by kind pass over comments, so each finds its counterpart
  obtain ⟨body', hbody', hstrips⟩ := h.child? (by rw [hkind]; rfl) rfl hbody
  obtain ⟨method', hmethod', hstrips⟩ := hstrips.part? (by rw [hbodyKind]; rfl)
    declaresProperties_bare hcomment hmethod
  obtain ⟨block', hblock', hstrips⟩ := hstrips.child? (by rw [hmethodKind]; rfl) rfl hblock
  obtain ⟨statement', hstatement', hstrips⟩ := hstrips.part? (by rw [hblockKind]; rfl)
    (fun c => by rw [kind_bare]) (fun c hc => kind_beq_of_isComment rfl hc) hstatement
  -- the expression does not: here it matters that no comment is left
  obtain ⟨value', hvalue', hstrips⟩ := hstrips.operand? (by rw [hstatementKind]; rfl) hvalue
  obtain ⟨object', hobject', hstrips⟩ := hstrips.unwrap hwraps
  refine ⟨object', ?_, hstrips⟩
  rw [ScriptNode.literal?, hbody', Option.bind_some, hmethod', Option.bind_some, returnedObject?,
    hblock']
  simp only [Option.bind_eq_bind, Option.bind_some, hstatement', hvalue', hobject']

theorem Wraps.kind_eq {object value : ScriptNode} {levels : List ScriptNode}
    (h : Wraps object value levels) : Node.kind object = .construct .object := by
  induction h with
  | itself hkind => exact hkind
  | within _ _ _ ih => exact ih

end ScriptNode

open ScriptNode

/-! ### Properties of a class -/

/-- The entries of an object without comments declare the same. -/
theorem ScriptNode.Strips.map_content {object object' : ScriptNode} (h : Strips object object')
    (hkind : Node.kind object = .construct .object) (d d' : Document) :
    ((Node.children object').filterMap (Property.ofEntry? d')).map Property.content
      = ((Node.children object).filterMap (Property.ofEntry? d)).map Property.content := by
  have hcomment (d : Document) (c : ScriptNode) (hc : (Node.kind c).isComment = true) :
      (Property.ofEntry? d c).map Property.content = none := by
    rw [Property.map_content_eq, if_neg]
    intro hpair
    rw [hpair] at hc
    exact absurd hc (by decide)
  have hbare {n : ScriptNode} (hn : Node.kind n = .construct .object) :
      ((Node.children n).filterMap (Property.ofEntry? d')).map Property.content
        = (Node.children n.bare).filterMap fun c => (Property.ofEntry? d' c).map Property.content := by
    rw [List.map_filterMap, filterMap_children_bare (Property.map_content_bare d' d')
      (hcomment d') (by rw [hn]; rfl)]
  rw [hbare (h.kind_eq.trans hkind), h.bare_eq, ← hbare hkind]
  exact Property.map_content_filterMap d d' _

/-- **Comments hide the properties of a class if and only if one of them comes first in the return
statement or between parentheses around the object.** Without its comments the class has the
properties that the entries of the object declare. With them it has the same, or none. -/
theorem content_eq_iff_not_hidden {d d' : Document}
    {declaration declaration' name name' object : ScriptNode} {levels : List ScriptNode}
    (hkind : Node.kind declaration = .construct .classDeclaration)
    (hreturns : Returns declaration object levels) (hstrips : Strips declaration declaration') :
    (Element.ofClass d' declaration' name').properties.map Property.content
        = ((Node.children object).filterMap (Property.ofEntry? d)).map Property.content
      ∧ (Element.ofClass d declaration name).properties
        = (if levels.any hides then [] else (Node.children object).filterMap (Property.ofEntry? d))
      ∧ ((Element.ofClass d declaration name).properties.map Property.content
          = (Element.ofClass d' declaration' name').properties.map Property.content
        ↔ (∀ level ∈ levels, level.hides = false)
          ∨ (Node.children object).filter isProperty = []) := by
  have hobject : Node.kind object = .construct .object := by
    obtain ⟨-, -, -, -, -, hwraps⟩ := hreturns
    exact hwraps.kind_eq
  have hbare : (Element.ofClass d' declaration' name').properties.map Property.content
      = ((Node.children object).filterMap (Property.ofEntry? d)).map Property.content := by
    obtain ⟨object', hliteral, hobject'⟩ := hstrips.literal? hkind hreturns
    rw [properties_ofClass, hliteral, Option.map_some, Option.getD_some,
      hobject'.map_content hobject d d']
  have hwritten : (Element.ofClass d declaration name).properties
      = if levels.any hides then [] else (Node.children object).filterMap (Property.ofEntry? d) := by
    rw [properties_ofClass, literal?_eq hreturns]
    cases levels.any hides <;> rfl
  have hnone : (Node.children object).filterMap (Property.ofEntry? d) = []
      ↔ (Node.children object).filter isProperty = [] := by
    simp [List.filterMap_eq_nil_iff, List.filter_eq_nil_iff, ← Property.isSome_ofEntry? d]
  refine ⟨hbare, hwritten, ?_⟩
  rw [hbare, hwritten, ← hnone]
  cases hany : levels.any hides with
  | true =>
    have hsome : ¬ ∀ level ∈ levels, level.hides = false := by simpa using hany
    rw [if_pos rfl, or_iff_right hsome, List.map_nil, eq_comm, List.map_eq_nil_iff]
  | false =>
    have hall : ∀ level ∈ levels, level.hides = false := by simpa using hany
    exact iff_of_true rfl (.inl hall)

/-! ### A comment between parentheses, and one at the return statement

    class Card{static properties(){return((/**/{a:{}}));}}
    class Card{static properties(){return/**/{a:{}};}}
-/

namespace Card

/-- A comment. -/
def comment : Syntax.Tree Script.Kind := .leaf (.terminal .comment) "/**/"

/-- An expression between parentheses. -/
def parenthesized (inner : List (Syntax.Tree Script.Kind)) : Syntax.Tree Script.Kind :=
  .branch (.construct .parenthesized) (mark "(" :: inner ++ [mark ")"])

/-- An object with one property. -/
def single : Syntax.Tree Script.Kind := object [pair "a" (object [])]

/-- The object behind a comment, in parentheses twice. -/
def twice : Syntax.Tree Script.Kind := parenthesized [parenthesized [comment, single]]

/-- The return statement. -/
def statement : Syntax.Tree Script.Kind :=
  .branch (.construct .returnStatement) [mark "return", twice, mark ";"]

/-- The levels around the object. -/
def levels : List ScriptNode :=
  [⟨31, statement⟩, ⟨37, twice⟩, ⟨38, parenthesized [comment, single]⟩]

theorem returns_twice : Returns (declaration [twice]) ⟨43, single⟩ levels := by
  have hbody : (declaration [twice]).child? (.construct .classBody) = some ⟨10, body [twice]⟩ := by
    cbv
  have hmethod : (ScriptNode.parts ⟨10, body [twice]⟩).find? declaresProperties
      = some ⟨11, method [twice]⟩ := by
    cbv
  have hblock : ScriptNode.child? ⟨11, method [twice]⟩ (.construct .block)
      = some ⟨30, .branch (.construct .block) [mark "\x7b", statement, mark "\x7d"]⟩ := by
    cbv
  have hvalue : ScriptNode.operand? ⟨31, statement⟩ = some ⟨37, twice⟩ := by cbv
  have houter : ScriptNode.operand? ⟨37, twice⟩ = some ⟨38, parenthesized [comment, single]⟩ := by
    cbv
  have hinner : ScriptNode.operand? ⟨38, parenthesized [comment, single]⟩ = some ⟨43, single⟩ := by
    cbv
  exact .intro hbody hmethod hblock (by cbv) hvalue
    (.within rfl houter (.within rfl hinner (.itself rfl)))

theorem content_single (d : Document) :
    ((Node.children ⟨43, single⟩).filterMap (Property.ofEntry? d)).map Property.content
      = [("a", none, false, false)] := by
  rw [List.map_filterMap]
  simp only [Property.map_content_eq]
  cbv

end Card

theorem card_content_eq_iff_not_hidden :
    (Element.ofClass Card.document (Card.declaration [Card.twice]) Card.name).properties = []
      ∧ (Element.ofClass Card.document
          (Card.declaration [Card.parenthesized [Card.parenthesized [Card.single]]])
          Card.name).properties.map Property.content = [("a", none, false, false)]
      ∧ ¬ ∀ level ∈ Card.levels, level.hides = false := by
  have hstrips : Strips (Card.declaration [Card.twice])
      (Card.declaration [Card.parenthesized [Card.parenthesized [Card.single]]]) := by
    cbv
  obtain ⟨hbare, hwritten, hiff⟩ := @content_eq_iff_not_hidden Card.document Card.document _ _
    Card.name Card.name _ _ rfl Card.returns_twice hstrips
  have hhidden : Card.levels.any hides = true := by cbv
  rw [if_pos hhidden] at hwritten
  rw [Card.content_single] at hbare
  refine ⟨hwritten, hbare, fun hshown => ?_⟩
  have heq := hiff.2 (.inl hshown)
  rw [hwritten, hbare] at heq
  exact absurd heq (by simp)

theorem card_content_hidden :
    Strips (Card.declaration [Card.comment, Card.single]) (Card.declaration [Card.single])
      ∧ (Element.ofClass Card.document (Card.declaration [Card.comment, Card.single])
          Card.name).properties.map Property.content = []
      ∧ (Element.ofClass Card.document (Card.declaration [Card.single])
          Card.name).properties.map Property.content = [("a", none, false, false)] := by
  refine ⟨by cbv, ?_, ?_⟩
  · refine (map_content_properties (.ofText Sample.uri 1 "") _ _ _).trans ?_
    cbv
  · refine (map_content_properties (.ofText Sample.uri 1 "") _ _ _).trans ?_
    cbv

end ElementLens
