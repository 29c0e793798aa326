/-
Problems of a document.

A start tag with a custom name that has no definition, neither in the document
itself nor in a module it imports, is a problem. At most a given number of
problems are reported, those of the first tag names.

* **`Store.diagnose`** — the problems of a document, and whether there were
  tag names left when the limit was reached.
-/
import ElementLens.Navigation.Link

namespace ElementLens

/-- A problem: where it is and what it is. All problems are warnings. -/
structure Diagnostic where
  range : Span
  message : String
deriving DecidableEq, Repr

namespace Diagnostic

/-- Who reports problems. -/
def source : String := "XElement"

/-- The rank of a warning. -/
def severity : Nat := 2

/-- The problem of a tag name without a definition. -/
def undefined (token : Token) : Diagnostic :=
  ⟨token.span, s!"Could not find local or imported definition for <{token.tagName}>."⟩

end Diagnostic

/-- The problems of a document, and whether the limit cut them off. -/
structure Diagnosis where
  diagnostics : List Diagnostic
  capped : Bool
deriving DecidableEq, Repr

namespace Store

/-- Looks at tag names in turn. `found` are the problems so far, the last one
first, `room` how many more may be reported. -/
def diagnoseTokens (s : Store) (uri : Uri) (record : Record) (found : List Diagnostic)
    (room : Nat) : List Token → Diagnosis × Store
  | [] => (⟨found.reverse, false⟩, s)
  | token :: tokens =>
    match room with
    | 0 => (⟨found.reverse, true⟩, s)
    | left + 1 =>
      match token.kind with
      | .endTagName => s.diagnoseTokens uri record found (left + 1) tokens
      | .startTagName =>
        let (definition, s) := s.resolveIn uri record token
        match definition with
        | some _ => s.diagnoseTokens uri record found (left + 1) tokens
        | none => s.diagnoseTokens uri record (.undefined token :: found) left tokens

/-- The problems of a document, as far as its record shows them. -/
def diagnose (s : Store) (uri : Uri) (settings : Settings) : Diagnosis × Store :=
  let (record, s) := s.analysis uri
  match record with
  | none => (⟨[], false⟩, s)
  | some r => s.diagnoseTokens uri r [] settings.maxProblems r.tokens

end Store

end ElementLens
