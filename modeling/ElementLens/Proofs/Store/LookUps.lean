/-
What look-ups find.

Every look into a store uses the entry it looks at, so the store changes under a
search for a definition. But as long as what is known stays (`Store.Steady`), the
search finds what could be read off the records at once:

* **`definition?`** — the definition of a tag name, going by the records that are
  known;
* **`Steady.resolveIn`**, **`Steady.diagnoseTokens`** — the search and the loop
  over the tag names find just this;
* **`Roomy.steady`** — a store that has room for all documents concerned is a case
  of it.
-/
import ElementLens.Diagnostic
import ElementLens.Proofs.Store.Uses

namespace ElementLens

/-- Whether a tag name is a key of the elements of a record. -/
def Record.defines (r : Record) (tagName : String) : Bool :=
  (r.elements.map Prod.fst).contains tagName

theorem Record.isSome_element? (r : Record) (tagName : String) :
    (r.element? tagName).isSome = r.defines tagName := by
  unfold element? Elements.get? defines
  rw [Option.isSome_map, List.isSome_find?]
  induction r.elements with
  | nil => rfl
  | cons e es ih =>
    rw [List.any_cons, List.map_cons, List.contains_cons, ih, Bool.beq_comm]

namespace Store

/-! ### Definitions, going by what is known -/

/-- The definition of a tag name in the first of some imported modules whose record
has one. -/
def importedDefinition? (known : Uri → Option Record) (token : Token) (edges : List ImportEdge) :
    Option (DefinitionLink × Element) :=
  edges.findSome? fun edge =>
    ((known edge.uri).bind fun r => r.element? token.tagName).map fun e =>
      (⟨token.span, edge.uri, e.nameSpan⟩, e)

/-- The definition of a tag name in a document with the given record: its own one,
or else an imported one. -/
def definition? (known : Uri → Option Record) (uri : Uri) (r : Record) (token : Token) :
    Option (DefinitionLink × Element) :=
  ((r.element? token.tagName).map fun e => (⟨token.span, uri, e.nameSpan⟩, e)).or
    (importedDefinition? known token r.imports)

/-- Whether a token is a start tag whose name neither the record nor an imported
module defines. -/
def unresolved (known : Uri → Option Record) (r : Record) (t : Token) : Bool :=
  t.kind == .startTagName && !r.defines t.tagName
    && r.imports.all fun edge => !(known edge.uri).any (·.defines t.tagName)

variable {known : Uri → Option Record} {uri v : Uri} {r : Record} {token : Token}
  {edges : List ImportEdge} {s : Store} {few : Finset Uri}

theorem isSome_importedDefinition? : (importedDefinition? known token edges).isSome
    = edges.any fun edge => (known edge.uri).any (·.defines token.tagName) := by
  rw [importedDefinition?, List.isSome_findSome?]
  congr 1
  funext edge
  rw [Option.isSome_map]
  cases known edge.uri with
  | none => rfl
  | some r => exact r.isSome_element? token.tagName

theorem isSome_definition? : (definition? known uri r token).isSome
    = (r.defines token.tagName
      || r.imports.any fun edge => (known edge.uri).any (·.defines token.tagName)) := by
  rw [definition?, Option.isSome_or, Option.isSome_map, r.isSome_element?,
    isSome_importedDefinition?]

/-- A start tag is unresolved if it has no definition. -/
theorem unresolved_eq (uri : Uri) : unresolved known r token
    = (token.kind == .startTagName && !(definition? known uri r token).isSome) := by
  rw [unresolved, isSome_definition?, Bool.not_or, List.not_any_eq_all_not, Bool.and_assoc]

/-- A definition is the element of a record that is known. -/
theorem of_definition? {link : DefinitionLink} {e : Element} (hown : known uri = some r)
    (h : definition? known uri r token = some (link, e)) :
    link.origin = token.span ∧ link.target = e.nameSpan
      ∧ ∃ r', known link.targetUri = some r' ∧ r'.element? token.tagName = some e := by
  rcases Option.or_eq_some_iff.1 h with h | ⟨-, h⟩
  · obtain ⟨e', he, heq⟩ := Option.map_eq_some_iff.1 h
    obtain ⟨rfl, rfl⟩ := Prod.mk.inj heq
    exact ⟨rfl, rfl, r, hown, he⟩
  · obtain ⟨edge, -, hedge⟩ := List.exists_of_findSome?_eq_some h
    obtain ⟨e', he, heq⟩ := Option.map_eq_some_iff.1 hedge
    obtain ⟨rfl, rfl⟩ := Prod.mk.inj heq
    obtain ⟨r', hr, he⟩ := Option.bind_eq_some_iff.1 he
    exact ⟨rfl, rfl, r', hr, he⟩

/-! ### Searches -/

/-- Some documents can be looked up in any store of a kind: what is known of them
is found, and the store that is left is of this kind, too. -/
def Steady (few : Finset Uri) (known : Uri → Option Record) (kind : Store → Prop) : Prop :=
  ∀ s, kind s → ∀ v ∈ few, (s.analysis v).1 = known v ∧ kind (s.analysis v).2

/-- A document and the imports of its record, if it has one, are among some
documents. -/
structure Covers (few : Finset Uri) (known : Uri → Option Record) (uri : Uri) : Prop where
  self : uri ∈ few
  imports : ∀ r, known uri = some r → ∀ edge ∈ r.imports, edge.uri ∈ few

namespace Steady

variable {kind : Store → Prop}

theorem resolveImported (h : Steady few known kind) (hs : kind s) (token : Token)
    (hedges : ∀ edge ∈ edges, edge.uri ∈ few) :
    (s.resolveImported token edges).1 = importedDefinition? known token edges
      ∧ kind (s.resolveImported token edges).2 := by
  induction edges generalizing s with
  | nil => exact ⟨rfl, hs⟩
  | cons edge edges ih =>
    obtain ⟨hfound, hkind⟩ := h s hs edge.uri (hedges edge List.mem_cons_self)
    have hrest := ih hkind fun e he => hedges e (List.mem_cons_of_mem _ he)
    unfold Store.resolveImported
    rw [importedDefinition?, List.findSome?_cons, ← importedDefinition?]
    rcases hlook : s.analysis edge.uri with ⟨record, s'⟩
    rw [hlook] at hfound hkind hrest
    simp only at hfound hkind hrest ⊢
    rw [hfound]
    cases (known edge.uri).bind fun r => r.element? token.tagName with
    | some e => exact ⟨rfl, hkind⟩
    | none => exact hrest

theorem resolveIn (h : Steady few known kind) (hs : kind s) (uri : Uri) (token : Token)
    (himports : ∀ edge ∈ r.imports, edge.uri ∈ few) :
    (s.resolveIn uri r token).1 = definition? known uri r token
      ∧ kind (s.resolveIn uri r token).2 := by
  unfold Store.resolveIn definition?
  cases r.element? token.tagName with
  | some e => exact ⟨rfl, hs⟩
  | none => exact h.resolveImported hs token himports

/-- The loop over the tokens reports the unresolved ones in order, as many as
there is room for. -/
theorem diagnoseTokens (h : Steady few known kind) (hs : kind s) (uri : Uri)
    (himports : ∀ edge ∈ r.imports, edge.uri ∈ few) (found : List Diagnostic) (room : Nat)
    (tokens : List Token) :
    (s.diagnoseTokens uri r found room tokens).1.diagnostics
        = found.reverse
          ++ ((tokens.filter (unresolved known r)).take room).map Diagnostic.undefined
      ∧ kind (s.diagnoseTokens uri r found room tokens).2 := by
  induction tokens generalizing s found room with
  | nil => exact ⟨by simp [Store.diagnoseTokens], hs⟩
  | cons token tokens ih =>
    unfold Store.diagnoseTokens
    cases room with
    | zero => exact ⟨by simp, hs⟩
    | succ left =>
      cases hkind : token.kind with
      | endTagName =>
        have hskip : unresolved known r token = false := by simp [unresolved, hkind]
        rw [List.filter_cons_of_neg (by simp [hskip])]
        exact ih hs found (left + 1)
      | startTagName =>
        obtain ⟨hdefined, hs'⟩ := h.resolveIn hs uri token himports
        have hiff : unresolved known r token = !(s.resolveIn uri r token).1.isSome := by
          rw [hdefined, unresolved_eq uri, hkind]
          rfl
        rcases hresolve : s.resolveIn uri r token with ⟨_ | definition, s'⟩
        · rw [hresolve] at hs' hiff
          obtain ⟨hdiagnostics, hafter⟩ := ih hs' (.undefined token :: found) left
          rw [List.filter_cons_of_pos (by simpa using hiff)]
          exact ⟨by simp [hdiagnostics], hafter⟩
        · rw [hresolve] at hs' hiff
          rw [List.filter_cons_of_neg (by simp [hiff])]
          exact ih hs' found (left + 1)

theorem resolve (h : Steady few known kind) (hs : kind s) (token : Token)
    (hcovers : Covers few known uri) :
    (s.resolve uri token).1
        = (known uri).bind (fun r => (definition? known uri r token).map Prod.fst)
      ∧ kind (s.resolve uri token).2 := by
  obtain ⟨hfound, hkind⟩ := h s hs uri hcovers.self
  unfold Store.resolve
  rcases hlook : s.analysis uri with ⟨record, s'⟩
  rw [hlook] at hfound hkind
  obtain rfl : record = known uri := hfound
  cases hrecord : known uri with
  | none => exact ⟨rfl, hkind⟩
  | some r =>
    obtain ⟨hdefined, hafter⟩ := h.resolveIn hkind uri token (hcovers.imports r hrecord)
    exact ⟨congrArg (Option.map Prod.fst) hdefined, hafter⟩

theorem resolveAt (h : Steady few known kind) (hs : kind s) (p : Position)
    (hcovers : Covers few known uri) :
    (s.resolveAt uri p).1
        = (known uri).bind (fun r => (tokenAt? r.templates p).bind fun token =>
            (definition? known uri r token).map (token, ·))
      ∧ kind (s.resolveAt uri p).2 := by
  obtain ⟨hfound, hkind⟩ := h s hs uri hcovers.self
  unfold Store.resolveAt
  rcases hlook : s.analysis uri with ⟨record, s'⟩
  rw [hlook] at hfound hkind
  obtain rfl : record = known uri := hfound
  cases hrecord : known uri with
  | none => exact ⟨rfl, hkind⟩
  | some r =>
    simp only [Option.bind_some]
    cases tokenAt? r.templates p with
    | none => exact ⟨rfl, hkind⟩
    | some token =>
      obtain ⟨hdefined, hafter⟩ := h.resolveIn hkind uri token (hcovers.imports r hrecord)
      exact ⟨congrArg (Option.map (token, ·)) hdefined, hafter⟩

/-- The problems of a document. The imports matter only if there are tag names to look
up. -/
theorem diagnose_of_tokens (h : Steady few known kind) (hs : kind s) (settings : Settings)
    (huri : uri ∈ few)
    (himports : ∀ r, known uri = some r → r.tokens ≠ [] → ∀ edge ∈ r.imports, edge.uri ∈ few) :
    (s.diagnose uri settings).1.diagnostics
        = (known uri).elim [] (fun r =>
            ((r.tokens.filter (unresolved known r)).take settings.maxProblems).map
              Diagnostic.undefined)
      ∧ kind (s.diagnose uri settings).2 := by
  obtain ⟨hfound, hkind⟩ := h s hs uri huri
  unfold Store.diagnose
  rcases hlook : s.analysis uri with ⟨record, s'⟩
  rw [hlook] at hfound hkind
  obtain rfl : record = known uri := hfound
  cases hrecord : known uri with
  | none => exact ⟨rfl, hkind⟩
  | some r =>
    by_cases htokens : r.tokens = []
    · simp only [htokens]
      exact ⟨by simp [Store.diagnoseTokens, htokens], hkind⟩
    · exact h.diagnoseTokens hkind uri (himports r hrecord htokens) [] _ _

theorem diagnose (h : Steady few known kind) (hs : kind s) (settings : Settings)
    (hcovers : Covers few known uri) :
    (s.diagnose uri settings).1.diagnostics
        = (known uri).elim [] (fun r =>
            ((r.tokens.filter (unresolved known r)).take settings.maxProblems).map
              Diagnostic.undefined)
      ∧ kind (s.diagnose uri settings).2 :=
  h.diagnose_of_tokens hs settings hcovers.self fun r hr _ => hcovers.imports r hr

end Steady

/-! ### Room for all documents -/

/-- There are no documents in a store but some for which it has room. -/
structure Fits (few : Finset Uri) (s : Store) : Prop where
  linked : s.Linked
  room : few.card ≤ s.capacity + 1
  within : RecencyCache.Within few s

theorem Fits.after (h : Fits few s) {uses : List Use}
    (huses : ∀ u ∈ uses, ∀ uri, u.uri? = some uri → uri ∈ few) : Fits few (s.after uses) := by
  induction uses generalizing s with
  | nil => exact h
  | cons u uses ih =>
    refine ih ⟨Use.linked_act h.linked u, ?_, ?_⟩ fun u' hu' =>
      huses u' (List.mem_cons_of_mem _ hu')
    · rw [Use.capacity_act h.linked u]
      exact h.room
    · exact (Use.record?_act_within h.linked h.room (huses u List.mem_cons_self) h.within default).1

/-- What is known of a document, which is not looked up for it. -/
def entry (s : Store) (uri : Uri) : Entry := (s.peek? uri).getD Entry.empty

theorem settings_eq (s : Store) (uri : Uri) : (s.settings uri).1 = (s.entry uri).settings :=
  congrArg Entry.settings (s.get_fst uri Entry.empty)

/-- A store that has room for all its documents, and what is known of them. -/
structure Roomy (few : Finset Uri) (known : Uri → Entry) (s : Store) : Prop extends Fits few s where
  entry : ∀ v, s.entry v = known v

namespace Roomy

variable {entries : Uri → Entry}

theorem record? (h : Roomy few entries s) (v : Uri) : s.record? v = (entries v).analysis := by
  rw [← analysis_getD, ← h.entry v, Store.entry]

/-- A look-up leaves everything as it is known. -/
theorem lookup (h : Roomy few entries s) (hv : v ∈ few) : Roomy few entries (s.lookup v).2 := by
  have hputs : RecencyCache.Puts s v (s.entry v) (s.lookup v).2 := h.linked.puts_use v Entry.empty
  exact {
    linked := hputs.linked
    room := by rw [hputs.capacity]; exact h.room
    within := hputs.within hv h.within
    entry := fun j => by
      rw [← h.entry j, Store.entry]
      by_cases hj : j = v
      · rw [hj, hputs.value, Option.getD_some]
      · rw [hputs.peek?_within h.linked h.room hv h.within hj, Store.entry] }

/-- **Look-ups change nothing** in a store with room for all documents. -/
theorem steady (few : Finset Uri) (entries : Uri → Entry) :
    Steady few (fun v => (entries v).analysis) (Roomy few entries) :=
  fun s h v hv => ⟨(analysis_eq s v).trans (h.record? v), h.lookup hv⟩

end Roomy

end Store

end ElementLens
