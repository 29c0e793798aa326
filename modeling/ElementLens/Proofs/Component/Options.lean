/-
Properties and their options.

A property is declared by a pair of the returned object whose key is a word or a
string; other entries declare none. The options of a property are read one after
the other. To be read-only adds up, so their order does not matter for it. For
the type and for being internal the last option with the name counts, even if it
takes back what an earlier one said:

* **`Property.readOnly_foldl_heed`** — the options that make a property
  read-only;
* **`Property.foldl_overwritten`** — what the last option of a name decides;
* **`Property.flags_eq_of_options`** — options of other names have no say;
* **`properties_described`** — the properties of a class.
-/
import ElementLens.Proofs.Component.Fidelity
import ElementLens.Proofs.Script.Comments

namespace ElementLens

open Syntax (Node)

namespace ScriptNode

/-- Whether a node is a word or a string. -/
def isWord (n : ScriptNode) : Bool :=
  [.propertyName, .terminal .name, .construct .string].contains (Node.kind n)

/-- Whether an entry of an object is a pair with a word or a string in
front. -/
def isProperty (entry : ScriptNode) : Bool :=
  Node.kind entry == .construct .pair && entry.keyValue?.any fun pair => pair.1.isWord

/-- The name of an entry of an object: of a pair `a: 1`, of a method `a() {}`, or a name `a`
alone. -/
def entryName? (o : ScriptNode) : Option String :=
  match Node.kind o with
  | .construct .pair => o.keyValue?.bind fun pair => pair.1.keyText?
  | .construct .method => o.methodName?.bind keyText?
  | .shorthand => some (Node.text o)
  | _ => none

/-- The value of an entry of an object, which only a pair has. -/
def pairValue? (o : ScriptNode) : Option ScriptNode :=
  if Node.kind o = .construct .pair then o.keyValue?.map Prod.snd else none

/-- Whether an entry is a pair with the literal `true`. -/
def saysTrue (o : ScriptNode) : Bool :=
  o.pairValue?.any fun value => Node.kind value == .terminal (.literal "true")

/-- The identifier behind an entry that is a pair with one. -/
def identifier? (o : ScriptNode) : Option String :=
  (o.pairValue?.filter fun value => Node.kind value == .terminal .name).map Node.text

/-- The last of some entries with a name. -/
def lastNamed? (os : List ScriptNode) (name : String) : Option ScriptNode :=
  (os.filter fun o => o.entryName? == some name).getLast?

/-- The entries of the options of a property. Without an object of options there are none. -/
def optionsOf (entry : ScriptNode) : List ScriptNode :=
  ((entry.pairValue?.filter fun value => Node.kind value == .construct .object).map
    Node.children).getD []

/-- Whether an entry names one of the known options. -/
def setsOption (o : ScriptNode) : Bool :=
  o.entryName?.any fun name => ["type", "internal", "compute", "readOnly"].contains name

end ScriptNode

open ScriptNode

/-- Only parts of a construct can be entries. -/
theorem ScriptNode.filterMap_parts {β : Type} {f : ScriptNode → Option β}
    (hf : ∀ c, (Node.kind c).isNamed = false → f c = none) (n : ScriptNode) :
    n.parts.filterMap f = (Node.children n).filterMap f := by
  rw [parts, List.filterMap_filter]
  refine List.filterMap_congr fun c _ => ?_
  cases hnamed : (Node.kind c).isNamed with
  | true => rfl
  | false => exact (hf c hnamed).symm

/-! ### One option -/

theorem OptionEntry.ofNode?_eq (o : ScriptNode) :
    OptionEntry.ofNode? o
      = o.entryName?.map fun name => ⟨name, o.pairValue?.map OptionValue.ofNode⟩ := by
  unfold OptionEntry.ofNode? entryName? pairValue?
  generalize Node.kind o = kind
  split
  · cases o.keyValue? with
    | none => rfl
    | some pair => cases hkey : pair.1.keyText? <;> simp [hkey]
  · cases o.methodName? with
    | none => rfl
    | some name => cases hname : name.keyText? <;> simp [hname]
  · simp
  · simp_all

theorem OptionValue.ofNode_eq (n : ScriptNode) :
    OptionValue.ofNode n = if Node.kind n = .terminal .name then .name (Node.text n)
      else if Node.kind n = .terminal (.literal "true") then .yes else .other := by
  unfold OptionValue.ofNode
  generalize Node.kind n = kind
  split <;> simp_all

/-! ### Options without comments, wherever they stand -/

namespace ScriptNode

@[simp] theorem entryName?_bare (o : ScriptNode) : o.bare.entryName? = o.entryName? := by
  unfold entryName?
  rw [kind_bare]
  split
  · rename_i hkind
    exact keyValue?_bind_bare (by rw [hkind]; rfl)
  · rename_i hkind
    exact methodName?_bind_bare (by rw [hkind]; rfl)
  · rename_i hkind
    rw [text_bare (by rw [hkind]; rfl)]
  · rfl

theorem map_bare_pairValue? (o : ScriptNode) :
    o.bare.pairValue?.map bare = o.pairValue?.map bare := by
  have hvalue (m : ScriptNode) : (m.keyValue?.map Prod.snd).map bare
      = (m.keyValue?.map (Prod.map bare bare)).map Prod.snd := by
    rw [Option.map_map, Option.map_map]
    rfl
  unfold pairValue?
  rw [kind_bare]
  split
  · rename_i hkind
    rw [hvalue, hvalue, map_bare_keyValue? (by rw [hkind]; rfl)]
  · rfl

end ScriptNode

@[simp] theorem OptionValue.ofNode_bare (n : ScriptNode) :
    OptionValue.ofNode n.bare = OptionValue.ofNode n := by
  rw [OptionValue.ofNode_eq, OptionValue.ofNode_eq, kind_bare]
  by_cases hname : Node.kind n = .terminal .name
  · rw [if_pos hname, if_pos hname, text_bare (by rw [hname]; rfl)]
  · rw [if_neg hname, if_neg hname]

theorem map_ofNode_bare (o : ScriptNode) :
    o.bare.pairValue?.map OptionValue.ofNode = o.pairValue?.map OptionValue.ofNode := by
  have hvalue (m : ScriptNode) :
      m.pairValue?.map OptionValue.ofNode = (m.pairValue?.map bare).map OptionValue.ofNode := by
    simp [Option.map_map, Function.comp_def]
  rw [hvalue, hvalue o, map_bare_pairValue?]

/-- An option says the same with and without comments, and wherever it stands. -/
@[simp] theorem OptionEntry.ofNode?_bare (o : ScriptNode) :
    OptionEntry.ofNode? o.bare = OptionEntry.ofNode? o := by
  rw [OptionEntry.ofNode?_eq, OptionEntry.ofNode?_eq, entryName?_bare, map_ofNode_bare]

namespace Property

/-- A property after one more entry of its options. -/
def heed (p : Property) (o : ScriptNode) : Property :=
  match OptionEntry.ofNode? o with
  | some option => option.apply p
  | none => p

/-- What the options of a property decide. -/
def flags (p : Property) : Option String × Bool × Bool := (p.typeName, p.internal, p.readOnly)

theorem value_saysTrue (o : ScriptNode) :
    (o.pairValue?.map OptionValue.ofNode == some OptionValue.yes) = o.saysTrue := by
  rw [saysTrue]
  cases o.pairValue? with
  | none => rfl
  | some value =>
    rw [Option.map_some, Option.any_some, OptionValue.ofNode_eq]
    split_ifs <;> simp_all

theorem saysTrue_bare (o : ScriptNode) : o.bare.saysTrue = o.saysTrue := by
  rw [← value_saysTrue, ← value_saysTrue, map_ofNode_bare]

theorem value_identifier? (o : ScriptNode) :
    (match o.pairValue?.map OptionValue.ofNode with
      | some (.name text) => some text
      | _ => none) = o.identifier? := by
  rw [identifier?]
  cases o.pairValue? with
  | none => rfl
  | some value =>
    rw [Option.map_some, OptionValue.ofNode_eq]
    split_ifs <;> simp_all

theorem readOnly_heed (p : Property) (o : ScriptNode) :
    (p.heed o).readOnly = true ↔ p.readOnly = true ∨ o.entryName? = some "compute"
      ∨ o.entryName? = some "readOnly" ∧ o.saysTrue = true := by
  rw [heed, OptionEntry.ofNode?_eq]
  cases hname : o.entryName? with
  | none => simp
  | some name =>
    rw [Option.map_some, ← value_saysTrue]
    simp only [OptionEntry.apply]
    split <;> simp_all

theorem internal_heed (p : Property) (o : ScriptNode) :
    (p.heed o).internal = if o.entryName? = some "internal" then o.saysTrue else p.internal := by
  rw [heed, OptionEntry.ofNode?_eq]
  cases hname : o.entryName? with
  | none => simp
  | some name =>
    rw [Option.map_some, ← value_saysTrue]
    simp only [OptionEntry.apply]
    split <;> simp_all

theorem typeName_heed (p : Property) (o : ScriptNode) :
    (p.heed o).typeName = if o.entryName? = some "type" then o.identifier? else p.typeName := by
  rw [heed, OptionEntry.ofNode?_eq]
  cases hname : o.entryName? with
  | none => simp
  | some name =>
    rw [Option.map_some]
    simp only [OptionEntry.apply]
    split
    · exact value_identifier? o
    all_goals simp_all

/-! ### All options -/

/-- To be read-only adds up. -/
theorem readOnly_foldl_heed (p : Property) (os : List ScriptNode) :
    (os.foldl heed p).readOnly = true ↔ p.readOnly = true
      ∨ (∃ o ∈ os, o.entryName? = some "compute")
      ∨ ∃ o ∈ os, o.entryName? = some "readOnly" ∧ o.saysTrue = true := by
  induction os generalizing p with
  | nil => simp
  | cons o os ih =>
    rw [List.foldl_cons, ih, readOnly_heed]
    simp only [List.exists_mem_cons_iff, or_assoc, or_left_comm]

/-- What each option of a name sets anew is left as the last of them sets it. -/
theorem foldl_overwritten {β : Type} {f : Property → β} {g : ScriptNode → β} {name : String}
    (h : ∀ p o, f (p.heed o) = if o.entryName? = some name then g o else f p) (p : Property)
    (os : List ScriptNode) :
    f (os.foldl heed p) = ((lastNamed? os name).map g).getD (f p) := by
  -- from the end, where the last option with the name is found
  induction os using List.reverseRecOn with
  | nil => rfl
  | append_singleton os o ih =>
    rw [List.foldl_append, List.foldl_cons, List.foldl_nil, h, lastNamed?, List.filter_append]
    by_cases hname : o.entryName? = some name
    · rw [if_pos hname, List.filter_cons_of_pos (by simpa using hname)]
      simp
    · rw [if_neg hname, List.filter_cons_of_neg (by simpa using hname), ih]
      simp [lastNamed?]

theorem foldl_heed_eq (p : Property) (os : List ScriptNode) :
    os.foldl heed p = (os.filterMap OptionEntry.ofNode?).foldl OptionEntry.apply p := by
  induction os generalizing p with
  | nil => rfl
  | cons o os ih =>
    rw [List.foldl_cons, ih, List.filterMap_cons, heed]
    cases OptionEntry.ofNode? o <;> rfl

theorem foldl_parts (p : Property) (n : ScriptNode) :
    (n.parts.filterMap OptionEntry.ofNode?).foldl OptionEntry.apply p
      = (Node.children n).foldl heed p := by
  have hnone (c : ScriptNode) (hnamed : (Node.kind c).isNamed = false) :
      OptionEntry.ofNode? c = none := by
    unfold OptionEntry.ofNode?
    split <;> simp_all [Script.Kind.isNamed]
  rw [filterMap_parts hnone, foldl_heed_eq]

/-- The options of a property are heeded one after the other. -/
theorem ofEntry?_eq (d : Document) (entry : ScriptNode) :
    ofEntry? d entry = if Node.kind entry = .construct .pair then
        entry.keyValue?.bind fun pair => pair.1.keyText?.map fun name =>
          (optionsOf entry).foldl heed (named name (pair.1.span d))
      else none := by
  unfold ofEntry? optionsOf pairValue?
  by_cases hkind : Node.kind entry = .construct .pair
  · simp only [hkind, beq_self_eq_true, if_true]
    cases entry.keyValue? with
    | none => rfl
    | some pair =>
      obtain ⟨key, value⟩ := pair
      cases hkey : key.keyText? with
      | none => simp [hkey]
      | some name =>
        by_cases hvalue : Node.kind value = .construct .object
        · simp [hkey, hvalue, foldl_parts, Option.filter_some]
        · simp [hkey, hvalue, Option.filter_some]
  · simp [hkind]

theorem ofEntry?_eq_some_iff {d : Document} {entry : ScriptNode} {p : Property} :
    ofEntry? d entry = some p ↔ Node.kind entry = .construct .pair
      ∧ ∃ key value name, entry.keyValue? = some (key, value) ∧ key.keyText? = some name
        ∧ p = (optionsOf entry).foldl heed (named name (key.span d)) := by
  rw [ofEntry?_eq, Option.ite_none_right_eq_some, Option.bind_eq_some_iff]
  refine and_congr_right fun _ => ⟨?_, ?_⟩
  · rintro ⟨⟨key, value⟩, hpair, hp⟩
    obtain ⟨name, hname, rfl⟩ := Option.map_eq_some_iff.1 hp
    exact ⟨key, value, name, hpair, hname, rfl⟩
  · rintro ⟨key, value, name, hpair, hname, rfl⟩
    exact ⟨(key, value), hpair, Option.map_eq_some_iff.2 ⟨name, hname, rfl⟩⟩

theorem isSome_keyText? (n : ScriptNode) : n.keyText?.isSome = n.isWord := by
  unfold keyText? isWord
  generalize Node.kind n = kind
  split <;> simp_all

theorem isSome_ofEntry? (d : Document) (entry : ScriptNode) :
    (Property.ofEntry? d entry).isSome = entry.isProperty := by
  rw [ofEntry?_eq, isProperty]
  by_cases hkind : Node.kind entry = .construct .pair
  · rw [if_pos hkind]
    cases entry.keyValue? with
    | none => simp
    | some pair => simp [hkind, ← isSome_keyText?]
  · simp [hkind]

/-! ### Properties and their entries -/

/-- What an entry of an object says about the property that it declares. -/
structure Describes (d : Document) (entry : ScriptNode) (p : Property) : Prop where
  key : ∃ key value, entry.keyValue? = some (key, value) ∧ key.keyText? = some p.key
    ∧ p.span = key.span d
  readOnly_iff : p.readOnly = true ↔ (∃ o ∈ optionsOf entry, o.entryName? = some "compute")
    ∨ ∃ o ∈ optionsOf entry, o.entryName? = some "readOnly" ∧ o.saysTrue = true
  internal_iff : p.internal = true
    ↔ ∃ o, lastNamed? (optionsOf entry) "internal" = some o ∧ o.saysTrue = true
  typeName_eq : p.typeName = (lastNamed? (optionsOf entry) "type").bind identifier?

theorem key_foldl_heed (p : Property) (os : List ScriptNode) :
    (os.foldl heed p).key = p.key ∧ (os.foldl heed p).span = p.span := by
  induction os generalizing p with
  | nil => exact ⟨rfl, rfl⟩
  | cons o os ih =>
    have hheed : (p.heed o).key = p.key ∧ (p.heed o).span = p.span := by
      unfold heed OptionEntry.apply
      split
      · split <;> exact ⟨rfl, rfl⟩
      · exact ⟨rfl, rfl⟩
    rw [List.foldl_cons, (ih _).1, (ih _).2]
    exact hheed

theorem describes_of_eq_some {d : Document} {entry : ScriptNode} {p : Property}
    (h : ofEntry? d entry = some p) : Describes d entry p := by
  obtain ⟨-, key, value, name, hpair, hname, rfl⟩ := ofEntry?_eq_some_iff.1 h
  obtain ⟨hkey, hspan⟩ := key_foldl_heed (named name (key.span d)) (optionsOf entry)
  refine ⟨⟨key, value, hpair, by rw [hkey]; exact hname, hspan⟩, ?_, ?_, ?_⟩
  · rw [readOnly_foldl_heed]
    simp [named]
  · rw [foldl_overwritten internal_heed]
    cases lastNamed? (optionsOf entry) "internal" <;> simp [named]
  · rw [foldl_overwritten typeName_heed]
    cases lastNamed? (optionsOf entry) "type" <;> simp [named]

/-- Options of other names are not heeded. -/
theorem foldl_filter_heed (p : Property) (os : List ScriptNode) :
    (os.filter setsOption).foldl heed p = os.foldl heed p := by
  induction os generalizing p with
  | nil => rfl
  | cons o os ih =>
    cases hsets : o.setsOption with
    | true => rw [List.filter_cons_of_pos hsets, List.foldl_cons, List.foldl_cons, ih]
    | false =>
      have hheed : p.heed o = p := by
        rw [heed, OptionEntry.ofNode?_eq]
        rw [setsOption] at hsets
        cases hname : o.entryName? with
        | none => rfl
        | some name =>
          rw [hname] at hsets
          simp only [Option.map_some, OptionEntry.apply]
          split <;> simp_all
      rw [List.filter_cons_of_neg (by simp [hsets]), List.foldl_cons, hheed, ih]

theorem flags_apply {p q : Property} (h : p.flags = q.flags) (o : OptionEntry) :
    (o.apply p).flags = (o.apply q).flags := by
  simp only [flags, Prod.mk.injEq] at h ⊢
  unfold OptionEntry.apply
  split <;> simp [h]

/-- The flags of a property depend on nothing but what its options say. -/
theorem flags_foldl_heed {p q : Property} {os os' : List ScriptNode} (h : p.flags = q.flags)
    (hos : os.filterMap OptionEntry.ofNode? = os'.filterMap OptionEntry.ofNode?) :
    (os.foldl heed p).flags = (os'.foldl heed q).flags := by
  rw [foldl_heed_eq, foldl_heed_eq, hos]
  induction os'.filterMap OptionEntry.ofNode? generalizing p q with
  | nil => exact h
  | cons o os ih => exact ih (flags_apply h o)

/-! ### Properties without comments, wherever they stand -/

/-- What a property consists of, its place aside. -/
def content (p : Property) : String × Option String × Bool × Bool := (p.key, p.flags)

theorem filterMap_optionsOf_bare (entry : ScriptNode) :
    (optionsOf entry.bare).filterMap OptionEntry.ofNode?
      = (optionsOf entry).filterMap OptionEntry.ofNode? := by
  have hcomment (c : ScriptNode) (hc : (Node.kind c).isComment = true) :
      OptionEntry.ofNode? c = none := by
    unfold OptionEntry.ofNode?
    split <;> simp_all [Script.Kind.isComment]
  have hoptions (m : ScriptNode) : (optionsOf m).filterMap OptionEntry.ofNode?
      = (((m.pairValue?.map bare).filter fun value => Node.kind value == .construct .object).map
          fun value => (Node.children value).filterMap OptionEntry.ofNode?).getD [] := by
    rw [optionsOf]
    cases m.pairValue? with
    | none => rfl
    | some value =>
      rw [Option.map_some, Option.filter_some, Option.filter_some, kind_bare]
      by_cases hobject : Node.kind value = .construct .object
      · simp [hobject, filterMap_children_bare OptionEntry.ofNode?_bare hcomment
          (show (Node.kind value).isToken = false by rw [hobject]; rfl)]
      · simp [hobject]
  rw [hoptions, hoptions, map_bare_pairValue?]

theorem map_content_eq (d : Document) (entry : ScriptNode) :
    (Property.ofEntry? d entry).map content = if Node.kind entry = .construct .pair then
        entry.entryName?.map fun name =>
          (name, ((optionsOf entry).foldl heed (named name default)).flags)
      else none := by
  rw [ofEntry?_eq]
  split
  · rename_i hkind
    rw [entryName?, hkind]
    cases entry.keyValue? with
    | none => rfl
    | some pair =>
      cases hkey : pair.1.keyText? with
      | none => simp [hkey]
      | some name =>
        simp only [Option.bind_some, hkey, Option.map_some, content, key_foldl_heed]
        exact congrArg some (Prod.ext rfl (flags_foldl_heed rfl rfl))
  · rfl

/-- A property consists of the same with and without comments, and wherever it is declared. -/
theorem map_content_bare (d d' : Document) (entry : ScriptNode) :
    (Property.ofEntry? d' entry.bare).map content = (Property.ofEntry? d entry).map content := by
  rw [map_content_eq, map_content_eq, kind_bare, entryName?_bare]
  split
  · congr 1
    funext name
    exact Prod.ext rfl (flags_foldl_heed rfl (filterMap_optionsOf_bare entry))
  · rfl

/-- What some entries declare does not depend on the document. -/
theorem map_content_filterMap (d d' : Document) (entries : List ScriptNode) :
    (entries.filterMap (Property.ofEntry? d')).map content
      = (entries.filterMap (Property.ofEntry? d)).map content := by
  rw [List.map_filterMap, List.map_filterMap]
  exact List.filterMap_congr fun entry _ => by rw [map_content_eq, map_content_eq]

section Entries

variable {d d' : Document} {entry entry' : ScriptNode} {p p' : Property}

/-- Options of other names have no say. -/
theorem flags_eq_of_options (hp : ofEntry? d entry = some p) (hp' : ofEntry? d' entry' = some p')
    (h : ((optionsOf entry).filter setsOption).filterMap OptionEntry.ofNode?
      = ((optionsOf entry').filter setsOption).filterMap OptionEntry.ofNode?) :
    p.flags = p'.flags := by
  obtain ⟨-, key, value, name, -, -, rfl⟩ := ofEntry?_eq_some_iff.1 hp
  obtain ⟨-, key', value', name', -, -, rfl⟩ := ofEntry?_eq_some_iff.1 hp'
  rw [← foldl_filter_heed, ← foldl_filter_heed _ (optionsOf entry')]
  exact flags_foldl_heed rfl h

/-- The order of the options has no say in whether a property is read-only. -/
theorem readOnly_eq_of_perm (hp : ofEntry? d entry = some p) (hp' : ofEntry? d' entry' = some p')
    (h : ((optionsOf entry).map Node.tree).Perm ((optionsOf entry').map Node.tree)) :
    p.readOnly = p'.readOnly := by
  -- the trees are permuted, while the nodes stand elsewhere; without a place they are the same
  have hmem {said : ScriptNode → Prop} (hsaid : ∀ o, said o.bare ↔ said o) :
      (∃ o ∈ optionsOf entry, said o) ↔ ∃ o ∈ optionsOf entry', said o := by
    have hbare := h.map fun t => (⟨0, t.uncommented⟩ : ScriptNode)
    rw [← map_bare_eq, ← map_bare_eq] at hbare
    have hone (os : List ScriptNode) : (∃ o ∈ os, said o) ↔ ∃ o ∈ os.map bare, said o := by
      simp [hsaid]
    rw [hone, hone (optionsOf entry')]
    exact exists_congr fun o => and_congr_left' hbare.mem_iff
  rw [Bool.eq_iff_iff, (describes_of_eq_some hp).readOnly_iff,
    (describes_of_eq_some hp').readOnly_iff, hmem fun o => by rw [entryName?_bare],
    hmem fun o => by rw [entryName?_bare, saysTrue_bare]]

end Entries

end Property

/-! ### Properties of a class -/

/-- The object that a class returns from its method `properties`. -/
def ScriptNode.literal? (declaration : ScriptNode) : Option ScriptNode :=
  (declaration.child? (.construct .classBody)).bind fun body =>
    (body.parts.find? declaresProperties).bind returnedObject?

/-- The properties of a class are those that the entries of its object declare. -/
theorem properties_ofClass (d : Document) (declaration name : ScriptNode) :
    (Element.ofClass d declaration name).properties
      = (declaration.literal?.map fun object =>
          (Node.children object).filterMap (Property.ofEntry? d)).getD [] := by
  have hnone (c : ScriptNode) (hnamed : (Node.kind c).isNamed = false) :
      Property.ofEntry? d c = none := by
    rw [Property.ofEntry?_eq, if_neg]
    intro hkind
    exact absurd hnamed (by rw [hkind]; decide)
  rw [Element.ofClass, literal?]
  cases declaration.child? (.construct .classBody) with
  | none => rfl
  | some body =>
    rw [Option.map_some, Option.getD_some, Option.bind_some, Element.propertiesOf]
    cases (body.parts.find? declaresProperties).bind returnedObject? with
    | none => rfl
    | some object => exact filterMap_parts hnone object

/-- What the properties of a class consist of does not depend on the document. -/
theorem map_content_properties (d d' : Document) (declaration name : ScriptNode) :
    (Element.ofClass d' declaration name).properties.map Property.content
      = (Element.ofClass d declaration name).properties.map Property.content := by
  rw [properties_ofClass, properties_ofClass]
  cases declaration.literal? with
  | none => rw [Option.map_none, Option.map_none]
  | some object =>
    rw [Option.map_some, Option.map_some, Option.getD_some, Option.getD_some]
    exact Property.map_content_filterMap d d' _

/-- **Properties are what the entries of the returned object say.** There is one for each pair with
a word or a string in front, in the order of the source. Being read-only does not depend on the
order of the options, and no flag on options of other names. -/
theorem properties_described {d : Document} {declaration name body object : ScriptNode}
    (hbody : declaration.child? (.construct .classBody) = some body)
    (hobject : (body.parts.find? declaresProperties).bind returnedObject? = some object) :
    List.Forall₂ (Property.Describes d) ((Node.children object).filter isProperty)
        (Element.ofClass d declaration name).properties
      ∧ ((Node.children object).filter isProperty).Pairwise (fun a b => a.stop ≤ b.start)
      ∧ ∀ (d' : Document) (entry entry' : ScriptNode) (p p' : Property),
        Property.ofEntry? d entry = some p → Property.ofEntry? d' entry' = some p' →
          (((optionsOf entry).map Node.tree).Perm ((optionsOf entry').map Node.tree) →
              p.readOnly = p'.readOnly)
            ∧ (((optionsOf entry).filter setsOption).map Node.tree
                = ((optionsOf entry').filter setsOption).map Node.tree → p.flags = p'.flags) := by
  have hliteral : declaration.literal? = some object := by
    rw [literal?, hbody, Option.bind_some, hobject]
  refine ⟨?_, ?_, ?_⟩
  · rw [properties_ofClass, hliteral]
    exact forall₂_filterMap (Property.isSome_ofEntry? d)
      (fun _ _ => Property.describes_of_eq_some) _
  · rw [Node.children_eq]
    exact (Node.adjoins_placed _ _).pairwise.sublist List.filter_sublist
  · intro d' entry entry' p p' hp hp'
    refine ⟨Property.readOnly_eq_of_perm hp hp', fun h => Property.flags_eq_of_options hp hp' ?_⟩
    rw [← filterMap_map_bare OptionEntry.ofNode?_bare, map_bare_eq, h, ← map_bare_eq,
      filterMap_map_bare OptionEntry.ofNode?_bare]

/-! ### Options that are taken back

    class Card{static properties(){return{a:{compute,readOnly:false},c,
      b:{readOnly:false,compute},d:{type:D,internal:true,internal:false,type:1}};}}
-/

namespace Card

/-- A mark or a word that is always spelled the same. -/
def mark (text : String) : Syntax.Tree Script.Kind := .leaf (.terminal (.literal text)) text

/-- An object with the given entries. -/
def object (entries : List (Syntax.Tree Script.Kind)) : Syntax.Tree Script.Kind :=
  .branch (.construct .object) (mark "\x7b" :: entries.intersperse (mark ",") ++ [mark "\x7d"])

/-- An entry with a value. -/
def pair (key : String) (value : Syntax.Tree Script.Kind) : Syntax.Tree Script.Kind :=
  .branch (.construct .pair) [.leaf .propertyName key, mark ":", value]

/-- The method that returns what stands in the given statement. -/
def method (returned : List (Syntax.Tree Script.Kind)) : Syntax.Tree Script.Kind :=
  .branch (.construct .method)
    [mark "static", .leaf .blank " ", .leaf .propertyName "properties",
      .branch (.construct .parameters) [mark "(", mark ")"],
      .branch (.construct .block)
        [mark "\x7b",
          .branch (.construct .returnStatement) (mark "return" :: returned ++ [mark ";"]),
          mark "\x7d"]]

/-- The body of the class. -/
def body (returned : List (Syntax.Tree Script.Kind)) : Syntax.Tree Script.Kind :=
  .branch (.construct .classBody) [mark "\x7b", method returned, mark "\x7d"]

/-- The declaration of the class. -/
def declaration (returned : List (Syntax.Tree Script.Kind)) : ScriptNode :=
  ⟨0, .branch (.construct .classDeclaration)
    [mark "class", .leaf .blank " ", .leaf (.terminal .name) "Card", body returned]⟩

/-- The name of the class. -/
def name : ScriptNode := ⟨6, .leaf (.terminal .name) "Card"⟩

/-- The options of the first property. -/
def options : List (Syntax.Tree Script.Kind) :=
  [.leaf .shorthand "compute", pair "readOnly" (mark "false")]

/-- The properties of the class. -/
def properties : Syntax.Tree Script.Kind :=
  object [pair "a" (object options), .leaf .shorthand "c", pair "b" (object options.reverse),
    pair "d" (object [pair "type" (.leaf (.terminal .name) "D"), pair "internal" (mark "true"),
      pair "internal" (mark "false"), pair "type" (.leaf (.terminal .number) "1")])]

/-- The script as a document. -/
def document : Document := .ofText Sample.uri 1 (String.ofList (declaration [properties]).tree.text)

theorem child?_declaration :
    (declaration [properties]).child? (.construct .classBody) = some ⟨10, body [properties]⟩ := by
  cbv

theorem returnedObject?_body :
    ((ScriptNode.parts ⟨10, body [properties]⟩).find? declaresProperties).bind returnedObject?
      = some ⟨37, properties⟩ := by
  cbv

/-- What the properties of the class are. -/
theorem content_properties (d : Document) :
    (Element.ofClass d (declaration [properties]) name).properties.map Property.content
      = [("a", none, false, true), ("b", none, false, true), ("d", none, false, false)] := by
  refine (map_content_properties (.ofText Sample.uri 1 "") d _ _).trans ?_
  cbv

end Card

theorem card_properties_described :
    (Element.ofClass Card.document (Card.declaration [Card.properties]) Card.name).properties.map
          Property.content
        = [("a", none, false, true), ("b", none, false, true), ("d", none, false, false)]
      ∧ List.Forall₂ (Property.Describes Card.document)
          ((Node.children ⟨37, Card.properties⟩).filter isProperty)
          (Element.ofClass Card.document (Card.declaration [Card.properties]) Card.name).properties :=
  ⟨Card.content_properties _,
    (properties_described Card.child?_declaration Card.returnedObject?_body).1⟩

end ElementLens
