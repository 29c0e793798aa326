/-
When a document has no record.

An extraction visits the nodes of a script up to the first one at which the
tokenizer breaks down. Nothing else can go wrong after the script was read:

* **`Extraction.visit_error_iff`** — when a visit fails;
* **`extractBy_error_iff`** — when an extraction fails.
-/
import ElementLens.Proofs.Component.Contents

namespace ElementLens

open Syntax (Node)

/-- A tokenizer breaks down on the markup template of a node. -/
def BreaksDownAt (tokenizer : Markup.Tokenizer) (n : ScriptNode) : Prop :=
  ∃ t, templateAt? n = some t ∧ tokenizer (t.segments.map (·.raw)) = .brokeDown

/-- Why nothing can be extracted: the document is no file, or no script, or the
tokenizer breaks down on one of its templates. -/
inductive Unextractable (parse? : List Char → Option (Syntax.Tree Script.Kind))
    (tokenizer : Markup.Tokenizer) (d : Document) : Prop
  | notAFile (hpath : d.uri.toPath? = none)
  | notAScript (hparse : parse? d.text.toList = none)
  | brokeDown (tree : Syntax.Tree Script.Kind) (hparse : parse? d.text.toList = some tree)
      (n : ScriptNode) (hn : n ∈ Node.preorder ⟨0, tree⟩) (hbreaks : BreaksDownAt tokenizer n)

section Tokenizer

variable (parse? : List Char → Option (Syntax.Tree Script.Kind)) (tokenizer : Markup.Tokenizer)
  (d : Document)

theorem Extraction.addTemplate_error_iff (x : Extraction) (t : Template.Literal) :
    (∃ e, x.addTemplate d tokenizer t = .error e)
      ↔ tokenizer (t.segments.map (·.raw)) = .brokeDown := by
  unfold addTemplate
  cases tokenizer (t.segments.map (·.raw)) <;> simp

/-- A visit fails if and only if the tokenizer breaks down at its node. -/
theorem Extraction.visit_error_iff (filePath : Path) (registrations : List Registration)
    (x : Extraction) (n : ScriptNode) :
    (∃ e, x.visit d filePath tokenizer registrations n = .error e) ↔ BreaksDownAt tokenizer n := by
  unfold visit BreaksDownAt templateAt?
  split
  · next hkind =>
    cases ht : Template.ofCall? n with
    | none => simp [hkind]
    | some t => simpa [hkind] using addTemplate_error_iff tokenizer d x t
  · next hkind => simp [hkind]
  · next hkind => simp [hkind]
  · next hcall _ _ => simp [if_neg hcall]

/-- **When an extraction fails.** -/
theorem extractBy_error_iff :
    (∃ e, (extractBy parse? d tokenizer).1 = .error e) ↔ Unextractable parse? tokenizer d := by
  unfold extractBy
  cases hpath : d.uri.toPath? with
  | none => exact ⟨fun _ => .notAFile hpath, fun _ => ⟨_, rfl⟩⟩
  | some filePath =>
    cases hparse : parse? d.text.toList with
    | none => exact ⟨fun _ => .notAScript hparse, fun _ => ⟨_, rfl⟩⟩
    | some tree =>
      have hwalk := Node.visitAll_snd_eq_none_iff
        (Extraction.visit_error_iff tokenizer d filePath (Registration.scan d.text))
        Extraction.empty (Node.preorder ⟨0, tree⟩)
      rw [← Node.walk_eq_visitAll] at hwalk
      rcases hresult : Node.walk (Extraction.visit d filePath tokenizer (Registration.scan d.text))
        Extraction.empty ⟨0, tree⟩ with ⟨x, failure⟩
      rw [hresult] at hwalk
      simp only [hresult]
      cases failure with
      | none =>
        refine ⟨fun ⟨e, he⟩ => absurd he (by simp), fun hun => ?_⟩
        cases hun with
        | notAFile hnone => simp [hpath] at hnone
        | notAScript hnone => simp [hparse] at hnone
        | brokeDown tree' hparse' n hn hbreaks =>
          obtain rfl : tree = tree' := Option.some.inj (hparse.symm.trans hparse')
          exact absurd hbreaks (hwalk.1 rfl n hn)
      | some e =>
        refine ⟨fun _ => ?_, fun _ => ⟨e, rfl⟩⟩
        by_contra hnot
        have hnone := hwalk.2 fun n hn hbreaks => hnot (.brokeDown tree hparse n hn hbreaks)
        exact absurd hnone (by simp)

end Tokenizer

end ElementLens
