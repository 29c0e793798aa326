/-
A template is its segments and substitutions.

The parts of a literal are read one after the other. At a substitution the
segment before it ends and the next one starts, so between two substitutions
side by side there is an empty segment. By turns, segments and substitutions
stand side by side between the quotes, and say what the literal says:

* **`weave`** — two lists by turns;
* **`adjoins_weave`** — segments and substitutions stand side by side;
* **`join_weave`** — they say what the parts of the literal say;
* **`segments_partition`** — the template of a call.
-/
import ElementLens.Proofs.Template.Segments

namespace ElementLens.Template

open Syntax (Node)
open Text

/-- The elements of two lists by turns, beginning with the first list. -/
def weave {α : Type} : List α → List α → List α
  | a :: as, b :: bs => a :: b :: weave as bs
  | as, _ => as

/-- The substitutions among some nodes. -/
def substitutions (ns : List (Node Script.Kind)) : List (Node Script.Kind) :=
  ns.filter fun n => n.kind == .construct .substitution

/-- A segment as a node. -/
def Segment.node (s : Segment) : Node Script.Kind := ⟨s.start, .leaf (.terminal .templateText) s.raw⟩

/-! ### Dividing -/

section Divide

variable {n : Node Script.Kind} {ns : List (Node Script.Kind)} {start : Nat} {texts : List String}

/-- A substitution ends a segment, and the next one starts behind it. -/
theorem divide_substitution (h : n.kind = .construct .substitution) :
    divide start texts [] (n :: ns)
      = ⟨start, String.join texts.reverse⟩ :: divide n.stop [] [] ns := by
  rw [divide, if_pos h, divide_done, List.reverse_singleton, List.singleton_append]

/-- Any other node belongs to the segment that is being read. -/
theorem divide_text (h : n.kind ≠ .construct .substitution) :
    divide start texts [] (n :: ns) = divide start (n.text :: texts) [] ns := by
  rw [divide, if_neg h]

theorem substitutions_cons_of_pos (h : n.kind = .construct .substitution) :
    substitutions (n :: ns) = n :: substitutions ns :=
  List.filter_cons_of_pos (by simpa using h)

theorem substitutions_cons_of_neg (h : n.kind ≠ .construct .substitution) :
    substitutions (n :: ns) = substitutions ns :=
  List.filter_cons_of_neg (by simpa using h)

/-- There is one segment more than there are substitutions. -/
theorem length_divide : (divide start texts [] ns).length = (substitutions ns).length + 1 := by
  induction ns generalizing start texts with
  | nil => rfl
  | cons n ns ih =>
    by_cases h : n.kind = .construct .substitution
    · rw [divide_substitution h, substitutions_cons_of_pos h, List.length_cons, List.length_cons, ih]
    · rw [divide_text h, substitutions_cons_of_neg h, ih]

/-- Segments and substitutions by turns say what the nodes say, behind the texts read so far. -/
theorem join_weave :
    String.join (weave ((divide start texts [] ns).map Segment.raw)
        ((substitutions ns).map Node.text))
      = String.join texts.reverse ++ String.join (ns.map Node.text) := by
  induction ns generalizing start texts with
  | nil => simp [divide, weave, substitutions]
  | cons n ns ih =>
    by_cases h : n.kind = .construct .substitution
    · rw [divide_substitution h, substitutions_cons_of_pos h, List.map_cons, List.map_cons, weave,
        String.join_cons, String.join_cons, ih, List.map_cons, String.join_cons]
      simp
    · rw [divide_text h, substitutions_cons_of_neg h, ih, List.map_cons, String.join_cons]
      simp [String.append_assoc]

/-- Segments and substitutions by turns stand side by side. -/
theorem adjoins_weave {mid stop : Nat} (hstop : Segment.stop ⟨start, String.join texts.reverse⟩ = mid)
    (hmeasured : ∀ n ∈ ns, n.tree.Measured) (hns : Node.Adjoins mid ns stop) :
    Node.Adjoins start (weave ((divide start texts [] ns).map Segment.node) (substitutions ns))
      stop := by
  -- what was read so far is a segment that ends where the rest begins
  induction ns generalizing start mid texts with
  | nil => exact ⟨rfl, hstop.trans hns⟩
  | cons n ns ih =>
    obtain ⟨hstart, hrest⟩ := hns
    have hmeasured' : ∀ m ∈ ns, m.tree.Measured :=
      fun m hm => hmeasured m (List.mem_cons_of_mem n hm)
    by_cases h : n.kind = .construct .substitution
    · rw [divide_substitution h, substitutions_cons_of_pos h, List.map_cons, weave]
      exact ⟨rfl, hstart.trans hstop.symm, ih (by simp [Segment.stop]) hmeasured' hrest⟩
    · rw [divide_text h, substitutions_cons_of_neg h]
      refine ih ?_ hmeasured' hrest
      have hwidth : n.text.utf8ByteSize = n.tree.width := by
        rw [← bytes_toList, Node.toList_text, (hmeasured n List.mem_cons_self).bytes_text]
      have hjoin : String.join (n.text :: texts).reverse = String.join texts.reverse ++ n.text := by
        simp
      rw [Segment.stop, hjoin, String.utf8ByteSize_append, hwidth, ← Nat.add_assoc]
      rw [Segment.stop] at hstop
      rw [hstop, ← hstart, Node.stop]

end Divide

/-! ### Templates of calls -/

/-- A node applies `html` to a template literal. -/
structure IsCall (n literal : Node Script.Kind) : Prop where
  tag : ∃ tag, n.children.head? = some tag ∧ tag.kind = .terminal .name ∧ tag.text = "html"
  literal_eq : n.children.getLast? = some literal
  kind_eq : literal.kind = .construct .template

/-- A quote at one end of a literal. -/
structure IsQuote (n : Node Script.Kind) : Prop where
  kind_eq : n.kind = .terminal (.literal "`")
  text_eq : n.text = "`"

/-- A literal begins and ends with a quote. -/
def Delimited (literal : Node Script.Kind) : Prop :=
  ∃ opening parts closing, literal.children = opening :: (parts ++ [closing])
    ∧ IsQuote opening ∧ IsQuote closing

/-- The segments of a template and the given substitutions by turns are all that stands between
its quotes. -/
structure Partitions (cs : List Char) (t : Literal) (subs : List (Node Script.Kind)) : Prop where
  length_eq : t.segments.length = subs.length + 1
  holds : ∀ s ∈ t.segments, Holds cs s.start s.stop s.raw.toList
  adjoins : Node.Adjoins (t.start + 1) (weave (t.segments.map Segment.node) subs) (t.stop - 1)
  ordered : (weave (t.segments.map Segment.node) subs).Pairwise fun a b => a.stop ≤ b.start
  text : Holds cs t.start t.stop
    ("`" ++ String.join (weave (t.segments.map Segment.raw) (subs.map Node.text)) ++ "`").toList

theorem IsCall.ofCall?_eq {n literal : Node Script.Kind} (h : IsCall n literal) :
    ofCall? n = some ⟨literal.start, literal.stop,
      divide (literal.start + 1) [] [] (inside literal)⟩ := by
  obtain ⟨⟨tag, htag, hkind, htext⟩, hliteral, hkind'⟩ := h
  simp [ofCall?, htag, hliteral, hkind, htext, hkind']

theorem Delimited.children_eq {literal : Node Script.Kind} (h : Delimited literal) :
    ∃ opening closing, literal.children = opening :: (inside literal ++ [closing])
      ∧ IsQuote opening ∧ IsQuote closing := by
  obtain ⟨opening, parts, closing, hchildren, hopening, hclosing⟩ := h
  refine ⟨opening, closing, ?_, hopening, hclosing⟩
  rw [inside, hchildren, List.tail_cons, List.dropLast_concat]

/-- **The segments and substitutions of a template partition its literal.** -/
theorem segments_partition {tree : Syntax.Tree Script.Kind} {cs : List Char}
    (hspells : tree.Spells cs) {n literal : Node Script.Kind} (hn : n ∈ Node.preorder ⟨0, tree⟩)
    (hcall : IsCall n literal) (hdelimited : Delimited literal) :
    ∃ t, ofCall? n = some t ∧ t.start = literal.start ∧ t.stop = literal.stop
      ∧ Partitions cs t (substitutions literal.children) := by
  obtain ⟨opening, closing, hchildren, hopening, hclosing⟩ := hdelimited.children_eq
  have hliteral : literal ∈ n.children := List.mem_of_getLast? hcall.literal_eq
  have hplaced := (hspells.inPlace.of_mem_preorder hn).child literal hliteral
  obtain ⟨hopen, hclose, hadjoins⟩ :=
    adjoins_of_quotes hplaced hchildren hopening.text_eq hclosing.text_eq
  have hinside : ∀ c ∈ inside literal, Node.InPlace cs c :=
    fun c hc => hplaced.child c (by simp [hchildren, hc])
  have hsubs : substitutions literal.children = substitutions (inside literal) := by
    rw [hchildren, substitutions_cons_of_neg (by rw [hopening.kind_eq]; decide), substitutions,
      List.filter_append, List.filter_cons_of_neg (by rw [hclosing.kind_eq]; decide)]
    simp [substitutions]
  have hstop : literal.stop - 1 = closing.start := by omega
  have hweave : Node.Adjoins (literal.start + 1)
      (weave ((divide (literal.start + 1) [] [] (inside literal)).map Segment.node)
        (substitutions (inside literal))) (literal.stop - 1) := by
    rw [hstop]
    exact adjoins_weave rfl (fun c hc => (hinside c hc).measured) hadjoins
  refine ⟨_, hcall.ofCall?_eq, rfl, rfl, ?_⟩
  rw [hsubs]
  refine ⟨length_divide, ?_, hweave, hweave.pairwise, ?_⟩
  · have hbegins := (hplaced.child opening (by simp [hchildren])).holds
    rw [hopen] at hbegins
    exact (@divided_divide _ _ _ _ [] _ hbegins.isBoundary.2.holds_nil hinside hadjoins).holds
  · have htext : literal.text
        = "`" ++ String.join (weave
            ((divide (literal.start + 1) [] [] (inside literal)).map Segment.raw)
            ((substitutions (inside literal)).map Node.text)) ++ "`" := by
      rw [Node.text_eq_join (by simp [hchildren]), hchildren, join_weave]
      simp [hopening.text_eq, hclosing.text_eq, String.append_assoc]
    rw [← htext, Node.toList_text]
    exact hplaced.holds

/-! ### Substitutions side by side

    html`${a}${b}x`
-/

namespace Gaps

/-- A substitution of a name. -/
def substitution (name : String) : Syntax.Tree Script.Kind :=
  .branch (.construct .substitution)
    [.leaf (.terminal (.literal "$\x7b")) "$\x7b", .leaf (.terminal .name) name,
      .leaf (.terminal (.literal "\x7d")) "\x7d"]

/-- The literal. -/
def literal : Syntax.Tree Script.Kind :=
  .branch (.construct .template)
    [.leaf (.terminal (.literal "`")) "`", substitution "a", substitution "b",
      .leaf (.terminal .templateText) "x", .leaf (.terminal (.literal "`")) "`"]

/-- The call. -/
def call : Syntax.Tree Script.Kind :=
  .branch (.construct .call) [.leaf (.terminal .name) "html", literal]

theorem spells_call : call.Spells call.text :=
  ⟨rfl, by simp [call, literal, substitution, Syntax.Tree.measured_leaf, Syntax.Tree.measured_branch]⟩

theorem isCall_call : IsCall ⟨0, call⟩ ⟨4, literal⟩ :=
  ⟨⟨⟨0, .leaf (.terminal .name) "html"⟩, rfl, rfl, rfl⟩, rfl, rfl⟩

theorem delimited_literal : Delimited ⟨4, literal⟩ :=
  ⟨⟨4, .leaf (.terminal (.literal "`")) "`"⟩,
    [⟨5, substitution "a"⟩, ⟨9, substitution "b"⟩, ⟨13, .leaf (.terminal .templateText) "x"⟩],
    ⟨14, .leaf (.terminal (.literal "`")) "`"⟩, rfl, ⟨rfl, rfl⟩, ⟨rfl, rfl⟩⟩

end Gaps

theorem gaps_segments_partition :
    ofCall? ⟨0, Gaps.call⟩ = some ⟨4, 15, [⟨5, ""⟩, ⟨9, ""⟩, ⟨13, "x"⟩]⟩
      ∧ Partitions Gaps.call.text ⟨4, 15, [⟨5, ""⟩, ⟨9, ""⟩, ⟨13, "x"⟩]⟩
          [⟨5, Gaps.substitution "a"⟩, ⟨9, Gaps.substitution "b"⟩] := by
  have hsubs : substitutions (Node.children ⟨4, Gaps.literal⟩)
      = [⟨5, Gaps.substitution "a"⟩, ⟨9, Gaps.substitution "b"⟩] := rfl
  have hcall : ofCall? ⟨0, Gaps.call⟩ = some ⟨4, 15, [⟨5, ""⟩, ⟨9, ""⟩, ⟨13, "x"⟩]⟩ := rfl
  obtain ⟨t, ht, -, -, hpartitions⟩ := segments_partition Gaps.spells_call
    (Node.self_mem_preorder _) Gaps.isCall_call Gaps.delimited_literal
  obtain rfl := Option.some.inj (ht.symm.trans hcall)
  rw [hsubs] at hpartitions
  exact ⟨hcall, hpartitions⟩

end ElementLens.Template
