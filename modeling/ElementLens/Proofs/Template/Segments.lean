/-
Segments of a markup template.

The parts of a literal stand side by side between its quotes. Those that are no
substitutions are joined to segments. So every segment stands in the script
with the text it is said to have, within the quotes, behind the segments before
it and apart from all substitutions:

* **`Divided`** — what is meant by this;
* **`divided_divide`** — dividing the parts of a literal gives it;
* **`divided_of_call`** — the same for the template of a node.
-/
import ElementLens.Proofs.Syntax.Places
import ElementLens.Template.Literal

namespace ElementLens.Template

open Syntax Text

/-- Every template literal of a script begins and ends with a quote. -/
def Quoted (t : Syntax.Tree Script.Kind) : Prop :=
  ∀ n ∈ Node.preorder ⟨0, t⟩, n.kind = .construct .template →
    2 ≤ n.children.length ∧ n.children.head?.map Node.text = some "`"
      ∧ n.children.getLast?.map Node.text = some "`"

/-- The offset just after a segment. -/
def Segment.stop (s : Segment) : Nat := s.start + s.raw.utf8ByteSize

/-- Segments between two offsets of a text, separated by those of the given
nodes that are substitutions. -/
structure Divided (cs : List Char) (start : Nat) (ns : List (Node Script.Kind)) (stop : Nat)
    (segments : List Segment) : Prop where
  holds : ∀ s ∈ segments, Holds cs s.start s.stop s.raw.toList
  bounds : ∀ s ∈ segments, start ≤ s.start ∧ s.stop ≤ stop
  ordered : segments.Pairwise fun s t => s.stop ≤ t.start
  apart : ∀ s ∈ segments, ∀ n ∈ ns, n.kind = .construct .substitution →
    s.stop ≤ n.start ∨ n.stop ≤ s.start

theorem divide_done (start : Nat) (texts : List String) (done : List Segment)
    (ns : List (Node Script.Kind)) :
    divide start texts done ns = done.reverse ++ divide start texts [] ns := by
  induction ns generalizing start texts done with
  | nil => simp [divide]
  | cons n ns ih =>
    rw [divide, divide]
    split
    · rw [ih _ _ (_ :: done), ih _ _ [_]]
      simp
    · exact ih _ _ done

theorem Segment.stop_eq {cs : List Char} {start stop : Nat} {raw : String}
    (h : Holds cs start stop raw.toList) : (⟨start, raw⟩ : Segment).stop = stop := by
  rw [← h.bytes_eq, bytes_toList]
  rfl

/-- Dividing nodes that stand side by side behind the texts read so far. -/
theorem divided_divide {cs : List Char} {start mid stop : Nat} {texts : List String}
    {ns : List (Node Script.Kind)} (htexts : Holds cs start mid (String.join texts.reverse).toList)
    (hplaced : ∀ n ∈ ns, Node.InPlace cs n) (hns : Node.Adjoins mid ns stop) :
    Divided cs start ns stop (divide start texts [] ns) := by
  induction ns generalizing start mid texts with
  | nil =>
    obtain rfl : mid = stop := hns
    have hstop := Segment.stop_eq htexts
    rw [divide, List.reverse_singleton]
    refine ⟨?_, ?_, List.pairwise_singleton _ _, by simp⟩
    · intro s hs
      obtain rfl := List.mem_singleton.1 hs
      rwa [hstop]
    · intro s hs
      obtain rfl := List.mem_singleton.1 hs
      exact ⟨le_rfl, hstop.le⟩
  | cons n ns ih =>
    obtain ⟨rfl, hrest⟩ := hns
    have hn := hplaced n List.mem_cons_self
    have hplaced' : ∀ m ∈ ns, Node.InPlace cs m :=
      fun m hm => hplaced m (List.mem_cons_of_mem n hm)
    have hle : start ≤ n.start := htexts.bytes_eq ▸ Nat.le_add_right _ _
    have hwidth : n.start ≤ n.stop := Nat.le_add_right _ _
    have hstop := Segment.stop_eq htexts
    rw [divide]
    split
    · -- the substitution ends a segment, the next one starts behind it
      obtain ⟨hholds, hbounds, hordered, hapart⟩ :=
        @ih n.stop n.stop [] hn.holds.isBoundary.2.holds_nil hplaced' hrest
      rw [divide_done, List.reverse_singleton]
      refine ⟨?_, ?_, ?_, ?_⟩
      · intro s hs
        rcases List.mem_cons.1 hs with rfl | hs
        · rwa [hstop]
        · exact hholds s hs
      · intro s hs
        rcases List.mem_cons.1 hs with rfl | hs
        · have := hrest.le
          exact ⟨le_rfl, by omega⟩
        · obtain ⟨hs, hs'⟩ := hbounds s hs
          exact ⟨by omega, hs'⟩
      · refine List.pairwise_cons.2 ⟨fun s hs => ?_, hordered⟩
        have := (hbounds s hs).1
        omega
      · intro s hs m hm hkind
        rcases List.mem_cons.1 hs with rfl | hs
        · rcases List.mem_cons.1 hm with rfl | hm
          · exact .inl hstop.le
          · have := (hrest.bounds m hm).1
            exact .inl (by omega)
        · rcases List.mem_cons.1 hm with rfl | hm
          · exact .inr (hbounds s hs).1
          · exact hapart s hs m hm hkind
    · -- any other node belongs to the segment that is being read
      rename_i hother
      have hnext : Holds cs start n.stop (String.join (n.text :: texts).reverse).toList := by
        have hword := htexts.append hn.holds
        rw [← Node.toList_text] at hword
        simpa using hword
      obtain ⟨hholds, hbounds, hordered, hapart⟩ := ih hnext hplaced' hrest
      refine ⟨hholds, hbounds, hordered, ?_⟩
      intro s hs m hm hkind
      rcases List.mem_cons.1 hm with rfl | hm
      · exact absurd hkind hother
      · exact hapart s hs m hm hkind

/-! ### Templates of nodes -/

/-- The template of a node comes from the last of the nodes below it, a literal
that is longer than its quotes. -/
theorem ofCall?_eq_some {n : Node Script.Kind} {t : Literal} (h : ofCall? n = some t) :
    ∃ front literal, n.children = front ++ [literal] ∧ literal.kind = .construct .template
      ∧ t = ⟨literal.start, literal.stop,
          divide (literal.start + 1) [] [] (inside literal)⟩ := by
  unfold ofCall? at h
  cases hlast : n.children.getLast? with
  | none => simp [hlast] at h
  | some literal =>
    obtain ⟨front, hfront⟩ := List.getLast?_eq_some_iff.1 hlast
    cases hhead : n.children.head? with
    | none => simp [hhead] at h
    | some tag =>
      simp only [hhead, hlast] at h
      split at h
      · rename_i hkinds
        simp only [Bool.and_eq_true, beq_iff_eq] at hkinds
        exact ⟨front, literal, hfront, hkinds.2, (Option.some.inj h).symm⟩
      · exact absurd h (by simp)

theorem Quoted.children_eq {tree : Syntax.Tree Script.Kind} (h : Quoted tree)
    {literal : Node Script.Kind} (hmem : literal ∈ Node.preorder ⟨0, tree⟩)
    (hkind : literal.kind = .construct .template) :
    ∃ opening closing, literal.children = opening :: (inside literal ++ [closing])
      ∧ opening.text = "`" ∧ closing.text = "`" := by
  obtain ⟨hlength, hfirst, hlast⟩ := h literal hmem hkind
  obtain ⟨opening, hopening, htext⟩ := Option.map_eq_some_iff.1 hfirst
  obtain ⟨closing, hclosing, htext'⟩ := Option.map_eq_some_iff.1 hlast
  obtain ⟨front, hchildren⟩ := List.getLast?_eq_some_iff.1 hclosing
  cases front with
  | nil => simp [hchildren] at hlength
  | cons first parts =>
    obtain rfl : first = opening := by simpa [hchildren] using hopening
    refine ⟨first, closing, ?_, htext, htext'⟩
    rw [inside, hchildren, List.cons_append, List.tail_cons, List.dropLast_concat]

/-- Quotes at both ends of a literal are its first and its last byte. -/
theorem adjoins_of_quotes {cs : List Char} {literal opening closing : Node Script.Kind}
    {parts : List (Node Script.Kind)} (hplaced : Node.InPlace cs literal)
    (hchildren : literal.children = opening :: (parts ++ [closing])) (hopening : opening.text = "`")
    (hclosing : closing.text = "`") :
    opening.stop = literal.start + 1 ∧ closing.start + 1 = literal.stop
      ∧ Node.Adjoins (literal.start + 1) parts closing.start := by
  have hone : ∀ c ∈ literal.children, c.text = "`" → c.stop = c.start + 1 := by
    intro c hc htext
    have hholds := (hplaced.child c hc).holds
    rw [← Node.toList_text, htext] at hholds
    exact hholds.bytes_eq.symm
  have hadjoins := Node.adjoins_children hplaced.measured (by simp [hchildren])
  rw [hchildren] at hadjoins hone
  obtain ⟨hstart, hrest⟩ := hadjoins
  obtain ⟨mid, hparts, hclose, hend⟩ := Node.adjoins_append.1 hrest
  have hopen := hone opening (by simp) hopening
  have hclosed := hone closing (by simp) hclosing
  refine ⟨by omega, hclosed.symm.trans hend, ?_⟩
  rw [hclose, ← hstart, ← hopen]
  exact hparts

/-- The quotes of a literal are its first and its last byte. -/
theorem adjoins_inside {tree : Syntax.Tree Script.Kind} {cs : List Char} (hspells : tree.Spells cs)
    (hquoted : Quoted tree) {literal : Node Script.Kind}
    (hmem : literal ∈ Node.preorder ⟨0, tree⟩) (hkind : literal.kind = .construct .template) :
    ∃ opening closing, literal.children = opening :: (inside literal ++ [closing])
      ∧ opening.stop = literal.start + 1 ∧ closing.start + 1 = literal.stop
      ∧ Node.Adjoins (literal.start + 1) (inside literal) closing.start := by
  obtain ⟨opening, closing, hchildren, hopening, hclosing⟩ := hquoted.children_eq hmem hkind
  exact ⟨opening, closing, hchildren,
    adjoins_of_quotes (hspells.inPlace.of_mem_preorder hmem) hchildren hopening hclosing⟩

/-- The segments of a template stand between the quotes of its literal. -/
theorem divided_inside {tree : Syntax.Tree Script.Kind} {cs : List Char} (hspells : tree.Spells cs)
    (hquoted : Quoted tree) {literal : Node Script.Kind}
    (hmem : literal ∈ Node.preorder ⟨0, tree⟩) (hkind : literal.kind = .construct .template) :
    Divided cs (literal.start + 1) (inside literal) (literal.stop - 1)
      (divide (literal.start + 1) [] [] (inside literal)) := by
  obtain ⟨opening, closing, hchildren, hopen, hclose, hadjoins⟩ :=
    adjoins_inside hspells hquoted hmem hkind
  have hplaced := hspells.inPlace.of_mem_preorder hmem
  have hopening := (hplaced.child opening (by simp [hchildren])).holds
  rw [hopen] at hopening
  rw [show literal.stop - 1 = closing.start by omega]
  exact @divided_divide _ _ _ _ [] _ hopening.isBoundary.2.holds_nil
    (fun n hn => hplaced.child n (by simp [hchildren, hn])) hadjoins

end ElementLens.Template
