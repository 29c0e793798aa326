/-
Questions about one tag name.

The definition at a position, what is shown there, the definition of a tag name, and
the problems of a document are looked up one by one, each in the store that the others
left. They do not contradict each other:

* **`exists_reports_problemsOf`** — a tag name is a problem if it has no definition;
* **`Session.handlers_agree`** — what is shown is the definition, this is the one of
  the tag name at the position, and there is one unless the tag name is a problem.
-/
import ElementLens.Proofs.Navigation.Texts
import ElementLens.Proofs.Session.Queries

namespace ElementLens

variable {known : Uri → Option Record} {isOpen : Uri → Bool} {uri : Uri} {r : Record}
  {token token' : Token} {p : Position} {settings : Settings}

/-- The tag name at a position is one of the document. -/
theorem mem_tokens_of_tokenAt? (h : tokenAt? r.templates p = some token) : token ∈ r.tokens := by
  have hmem := List.mem_of_find?_eq_some h
  obtain ⟨block, hblock, htoken⟩ := List.mem_flatMap.1 hmem
  exact List.mem_flatMap.2 ⟨block, List.mem_of_mem_filter hblock, htoken⟩

/-- The definition at a position is the one of the tag name there. -/
theorem definitionAt?_eq (hopen : isOpen uri = true) (hrecord : known uri = some r)
    (p : Position) :
    definitionAt? isOpen known uri p false
      = (tokenAt? r.templates p).bind fun token =>
          (Store.definition? known uri r token).map (token, ·) := by
  rw [definitionAt?, hopen, hrecord]
  rfl

/-- If the limit allows, all unresolved tag names are problems. -/
theorem problemsOf_eq (hrecord : known uri = some r)
    (hlimit : r.tokens.length ≤ settings.maxProblems) :
    problemsOf known uri settings
      = (r.tokens.filter (Store.unresolved known r)).map Diagnostic.undefined := by
  have hlength := (List.length_filter_le (Store.unresolved known r) r.tokens).trans hlimit
  rw [problemsOf, hrecord, Option.elim_some, List.take_of_length_le hlength]

/-- **A start tag is a problem** just if its name has no definition. -/
theorem exists_reports_problemsOf (hrecord : known uri = some r)
    (hlimit : r.tokens.length ≤ settings.maxProblems) (htoken : token ∈ r.tokens)
    (hkind : token.kind = .startTagName) :
    (∃ problem ∈ problemsOf known uri settings, problem.Reports token)
      ↔ Store.definition? known uri r token = none := by
  have hunresolved : Store.unresolved known r token = true
      ↔ Store.definition? known uri r token = none := by
    rw [Store.unresolved_eq uri, hkind, ← Option.not_isSome_iff_eq_none]
    simp
  rw [problemsOf_eq hrecord hlimit, ← hunresolved]
  constructor
  · rintro ⟨problem, hproblem, hreports⟩
    obtain ⟨other, hother, rfl⟩ := List.mem_map.1 hproblem
    obtain ⟨-, hother⟩ := List.mem_filter.1 hother
    -- only start tags are problems, so the other token is no other one
    have hkind' : other.kind = .startTagName := by
      rw [Store.unresolved_eq uri, Bool.and_eq_true, beq_iff_eq] at hother
      exact hother.1
    obtain ⟨hspan, hname⟩ := (Diagnostic.reports_iff.2 rfl).eq_of_reports hreports
    have hsame : other = token := by
      cases other
      cases token
      simp_all
    rwa [← hsame]
  · exact fun h => ⟨_, List.mem_map_of_mem (List.mem_filter.2 ⟨htoken, h⟩),
      Diagnostic.reports_iff.2 rfl⟩

namespace Session

variable {s : Session} {few : Finset Uri} {entries : Uri → Entry} {documents : List Document}

/-- What a session may have become when questions about a document were asked. -/
def Asked (s : Session) (uri : Uri) (s' : Session) : Prop :=
  ∃ qs : List Query, (∀ q ∈ qs, q.uri = uri) ∧ (s.askAll qs).2 = s'

namespace Calm

theorem asked (h : s.Calm few entries documents)
    (hcovers : Store.Covers few (fun v => (entries v).analysis) uri) {s' : Session}
    (hasked : s.Asked uri s') : s'.Calm few entries documents := by
  obtain ⟨qs, hqs, rfl⟩ := hasked
  exact (h.askAll fun q hq => (hqs q hq).symm ▸ hcovers).2

theorem definition_of_open (h : s.Calm few entries documents) (hopen : s.isOpen uri = true)
    (hcovers : Store.Covers few (fun v => (entries v).analysis) uri)
    (hrecord : (entries uri).analysis = some r) (p : Position) :
    (s.definition uri p false).1
      = (tokenAt? r.templates p).bind fun token =>
          (Store.definition? (fun v => (entries v).analysis) uri r token).map Prod.fst := by
  rw [h.definition p false hcovers, definitionAt?_eq hopen hrecord, Option.map_bind]
  simp only [Function.comp_def, Option.map_map]

theorem hover_of_open (h : s.Calm few entries documents) (hopen : s.isOpen uri = true)
    (hcovers : Store.Covers few (fun v => (entries v).analysis) uri)
    (hrecord : (entries uri).analysis = some r) (p : Position) :
    (s.hover uri p false).1
      = (tokenAt? r.templates p).bind fun token =>
          (Store.definition? (fun v => (entries v).analysis) uri r token).map
            fun (link, element) => ⟨element.markdown token.tagName link, link.origin⟩ := by
  rw [h.hover p false hcovers, definitionAt?_eq hopen hrecord, Option.map_bind]
  simp only [Function.comp_def, Option.map_map]

theorem resolve (h : s.Calm few entries documents)
    (hcovers : Store.Covers few (fun v => (entries v).analysis) uri)
    (hrecord : (entries uri).analysis = some r) (token : Token) :
    (s.store.resolve uri token).1
      = (Store.definition? (fun v => (entries v).analysis) uri r token).map Prod.fst := by
  rw [((Store.Roomy.steady few entries).resolve h.store token hcovers).1, hrecord,
    Option.bind_some]

end Calm

/-- **Handlers agree.** Let a document be open whose record is known, and let the store
have room for its imports. Then these go together, whatever else was asked about the
document before each of them:

* the definition at a position is the one of the tag name there;
* something is shown just if there is a definition: it is shown at the tag name, with
  the link to the definition and the properties of the element that stands there;
* if there is no limit, the problems report the start tags without a definition, and one
  of them at a position is reported just if there is no definition at this position. -/
theorem handlers_agree (s s₁ s₂ s₃ s₄ : Session) (uri : Uri) (r : Record) (hlinked : s.store.Linked)
    (hopen : s.isOpen uri = true) (hrecord : (s.store.analysis uri).1 = some r)
    (hroom : (s.store.keys ++ uri :: r.imports.map ImportEdge.uri).toFinset.card
      ≤ s.store.capacity + 1)
    (hdefinition : s.Asked uri s₁) (hhover : s.Asked uri s₂) (hresolve : s.Asked uri s₃)
    (hproblems : s.Asked uri s₄) :
    (∀ p, (s₁.definition uri p false).1
        = (tokenAt? r.templates p).bind fun token => (s₃.store.resolve uri token).1)
      ∧ (∀ p, (s₁.definition uri p false).1.isSome = (s₂.hover uri p false).1.isSome)
      ∧ (∀ p link, (s₁.definition uri p false).1 = some link →
          ∃ token element target shown, tokenAt? r.templates p = some token
            ∧ (s₂.hover uri p false).1 = some shown
            ∧ shown.range = link.origin ∧ link.origin = token.span
            ∧ element.IsShown token.tagName link shown.markdown
            ∧ (s.store.analysis link.targetUri).1 = some target
            ∧ target.element? token.tagName = some element
            ∧ link.target = element.nameSpan)
      ∧ ∀ settings : Settings, r.tokens.length ≤ settings.maxProblems →
          List.Forall₂ Diagnostic.Reports (s₄.diagnostics uri settings).1
            (r.tokens.filter fun token => token.kind == .startTagName
              && (s₃.store.resolve uri token).1.isNone)
          ∧ ∀ p token, tokenAt? r.templates p = some token → token.kind = .startTagName →
              ((∃ problem ∈ (s₄.diagnostics uri settings).1, problem.Reports token)
                ↔ (s₁.definition uri p false).1 = none) := by
  obtain ⟨few, hfew⟩ :
      ∃ few, few = (s.store.keys ++ uri :: r.imports.map ImportEdge.uri).toFinset := ⟨_, rfl⟩
  rw [← hfew] at hroom
  have hmem : ∀ v ∈ s.store.keys ++ uri :: r.imports.map ImportEdge.uri, v ∈ few := by
    rw [hfew]
    exact fun v => List.mem_toFinset.2
  have hcalm : s.Calm few s.store.entry s.documents :=
    calm hlinked hroom fun v hv => hmem v (List.mem_append_left _ hv)
  have hanalysis := congrFun s.analysis_eq_entry
  have hown : (s.store.entry uri).analysis = some r := (hanalysis uri).symm.trans hrecord
  have hcovers : Store.Covers few (fun v => (s.store.entry v).analysis) uri := by
    refine ⟨hmem uri (List.mem_append_right _ List.mem_cons_self), fun r' hr' edge hedge => ?_⟩
    obtain rfl : r = r' := Option.some.inj (hown.symm.trans hr')
    exact hmem _ (List.mem_append_right _ (List.mem_cons_of_mem _ (List.mem_map_of_mem hedge)))
  -- questions leave the documents open
  have hopen' : ∀ s', s.Asked uri s' → s'.isOpen uri = true := fun s' h => by
    rw [isOpen_congr (hcalm.asked hcovers h).documents, hopen]
  -- the answers, as they can be read off the records
  have hfound := (hcalm.asked hcovers hdefinition).definition_of_open
    (hopen' s₁ hdefinition) hcovers hown
  have hshown := (hcalm.asked hcovers hhover).hover_of_open (hopen' s₂ hhover) hcovers hown
  have hresolved := (hcalm.asked hcovers hresolve).resolve hcovers hown
  have hreported := fun settings =>
    ((hcalm.asked hcovers hproblems).diagnostics settings hcovers).1
  refine ⟨fun p => ?_, fun p => ?_, fun p link hlink => ?_, fun settings hlimit =>
    ⟨?_, fun p token htoken hkind => ?_⟩⟩
  · simp only [hfound, hresolved]
  · rw [hfound, hshown]
    cases tokenAt? r.templates p with
    | none => rfl
    | some token => simp only [Option.bind_some, Option.isSome_map]
  · rw [hfound] at hlink
    obtain ⟨token, htoken, hlink⟩ := Option.bind_eq_some_iff.1 hlink
    obtain ⟨⟨link', element⟩, hdefined, rfl⟩ := Option.map_eq_some_iff.1 hlink
    obtain ⟨horigin, htarget, target, htargeted, helement⟩ := Store.of_definition? hown hdefined
    refine ⟨token, element, target, ⟨element.markdown token.tagName link', link'.origin⟩, htoken,
      ?_, rfl, horigin, element.isShown_markdown token.tagName link',
      (hanalysis _).trans htargeted, helement, htarget⟩
    rw [hshown, htoken, Option.bind_some, hdefined, Option.map_some]
  · have hunresolved (token : Token) : (token.kind == .startTagName
          && (s₃.store.resolve uri token).1.isNone)
        = Store.unresolved (fun v => (s.store.entry v).analysis) r token := by
      rw [Store.unresolved_eq uri, hresolved, Option.isNone_map, Option.not_isSome]
    rw [hreported, problemsOf_eq hown hlimit]
    simp only [hunresolved]
    exact Diagnostic.forall₂_reports _
  · rw [hreported, exists_reports_problemsOf hown hlimit (mem_tokens_of_tokenAt? htoken) hkind,
      hfound, htoken, Option.bind_some, Option.map_eq_none_iff]

/-- One tag name is defined by the import, and the other one is a problem. -/
theorem handlers_agree_browsing :
    Sample.browsing.store.Linked
      ∧ Sample.browsing.isOpen Workspace.Sample.uri = true
      ∧ (Sample.browsing.store.analysis Workspace.Sample.uri).1 = some Sample.importing
      ∧ (Sample.browsing.store.keys
          ++ Workspace.Sample.uri :: Sample.importing.imports.map ImportEdge.uri).toFinset.card
        ≤ Sample.browsing.store.capacity + 1
      ∧ Sample.browsing.Asked Workspace.Sample.uri Sample.browsing
      ∧ Sample.browsing.Asked Workspace.Sample.uri
          (Sample.browsing.definition Workspace.Sample.uri ⟨0, 9⟩ false).2
      ∧ ((Sample.browsing.definition Workspace.Sample.uri ⟨0, 9⟩ false).2.hover
          Workspace.Sample.uri ⟨0, 3⟩ false).1.isSome = true
      ∧ ((Sample.browsing.definition Workspace.Sample.uri ⟨0, 9⟩ false).2.hover
          Workspace.Sample.uri ⟨0, 3⟩ false).1.map Hover.markdown
        = some "**The [b-b](/b.js#L2,7) element.**"
      ∧ ((∃ problem ∈ (Sample.browsing.diagnostics Workspace.Sample.uri ⟨2⟩).1,
            problem.Reports ⟨.startTagName, ⟨⟨0, 8⟩, ⟨0, 12⟩⟩, "c-c"⟩)
          ↔ (Sample.browsing.definition Workspace.Sample.uri ⟨0, 9⟩ false).1 = none) := by
  have hopen : Sample.browsing.isOpen Workspace.Sample.uri = true := by cbv
  have hrecord : (Sample.browsing.store.analysis Workspace.Sample.uri).1
      = some Sample.importing := by cbv
  have hkeys : Sample.browsing.store.keys
      = [Workspace.Sample.uri, Workspace.Sample.importedUri] := by cbv
  have hroom : (Sample.browsing.store.keys
      ++ Workspace.Sample.uri :: Sample.importing.imports.map ImportEdge.uri).toFinset.card
        ≤ Sample.browsing.store.capacity + 1 := by
    rw [hkeys]
    decide
  have hfirst : Sample.browsing.Asked Workspace.Sample.uri Sample.browsing :=
    ⟨[], fun _ h => absurd h List.not_mem_nil, rfl⟩
  have hsecond : Sample.browsing.Asked Workspace.Sample.uri
      (Sample.browsing.definition Workspace.Sample.uri ⟨0, 9⟩ false).2 :=
    ⟨[.definition Workspace.Sample.uri ⟨0, 9⟩ false],
      fun q hq => (List.mem_singleton.1 hq).symm ▸ rfl, rfl⟩
  obtain ⟨-, hshown, -, hproblems⟩ := handlers_agree _ _ _ _ _ Workspace.Sample.uri
    Sample.importing Sample.linked_browsing hopen hrecord hroom hfirst hsecond hfirst hfirst
  refine ⟨Sample.linked_browsing, hopen, hrecord, hroom, hfirst, hsecond, ?_, by cbv,
    (hproblems ⟨2⟩ (by decide)).2 ⟨0, 9⟩ _ (by cbv) rfl⟩
  rw [← hshown]
  cbv

end Session

end ElementLens
