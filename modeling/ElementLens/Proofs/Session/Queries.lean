/-
Questions about documents.

An editor asks for definitions, hovers and problems. Every question uses entries of the
store, and creates those that are not there. As long as there is room for all documents
that are asked for and for those that they import, this cannot be noticed:

* **`Query.answer`** — the answer of a question, going by the records that are known;
* **`Session.Calm.ask`**, **`Session.Calm.askAll`** — this is the answer that is given,
  and nothing has changed after it;
* **`Session.queries_commute`** — the order of questions does not matter.
-/
import ElementLens.Proofs.Workspace.Refresh

namespace ElementLens

/-- A question about a document. -/
inductive Query where
  | definition (uri : Uri) (p : Position) (cancelled : Bool)
  | hover (uri : Uri) (p : Position) (cancelled : Bool)
  | resolve (uri : Uri) (token : Token)
  | diagnostics (uri : Uri) (settings : Settings)

/-- The answer to a question. -/
inductive Answer where
  | link (found : Option DefinitionLink)
  | shown (found : Option Hover)
  | problems (found : List Diagnostic)
deriving DecidableEq

/-- What is found at a position, going by the records that are known: the tag name and
its definition. -/
def definitionAt? (isOpen : Uri → Bool) (known : Uri → Option Record) (uri : Uri) (p : Position)
    (cancelled : Bool) : Option (Token × DefinitionLink × Element) :=
  if cancelled || !isOpen uri then none
  else (known uri).bind fun r => (tokenAt? r.templates p).bind fun token =>
    (Store.definition? known uri r token).map (token, ·)

/-- The problems of a document, going by the records that are known. -/
def problemsOf (known : Uri → Option Record) (uri : Uri) (settings : Settings) :
    List Diagnostic :=
  (known uri).elim [] fun r =>
    ((r.tokens.filter (Store.unresolved known r)).take settings.maxProblems).map
      Diagnostic.undefined

namespace Query

/-- The document that is asked for. -/
def uri : Query → Uri
  | definition uri _ _ | hover uri _ _ | resolve uri _ | diagnostics uri _ => uri

/-- The answer of a question, going by the records that are known. -/
def answer (isOpen : Uri → Bool) (known : Uri → Option Record) : Query → Answer
  | definition uri p cancelled =>
    .link ((definitionAt? isOpen known uri p cancelled).map fun (_, link, _) => link)
  | hover uri p cancelled =>
    .shown ((definitionAt? isOpen known uri p cancelled).map fun (token, link, element) =>
      ⟨element.markdown token.tagName link, link.origin⟩)
  | resolve uri token =>
    .link ((known uri).bind fun r => (Store.definition? known uri r token).map Prod.fst)
  | diagnostics uri settings => .problems (problemsOf known uri settings)

end Query

namespace Session

/-- Asks a question. -/
def ask (s : Session) : Query → Answer × Session
  | .definition uri p cancelled =>
    let (found, s) := s.definition uri p cancelled
    (.link found, s)
  | .hover uri p cancelled =>
    let (found, s) := s.hover uri p cancelled
    (.shown found, s)
  | .resolve uri token =>
    let (found, store) := s.store.resolve uri token
    (.link found, s.withStore store)
  | .diagnostics uri settings =>
    let (found, s) := s.diagnostics uri settings
    (.problems found, s)

/-- Asks some questions one after the other. -/
def askAll (s : Session) : List Query → List Answer × Session
  | [] => ([], s)
  | q :: qs =>
    let (answer, s) := s.ask q
    let (answers, s) := s.askAll qs
    (answer :: answers, s)

/-- The document that is asked for, and those that it imports. -/
def concerns (s : Session) (q : Query) : List Uri :=
  q.uri :: ((s.store.record? q.uri).elim [] Record.imports).map ImportEdge.uri

/-- A session with some open documents, whose store has room for some documents, and of
which is known what is known. -/
structure Calm (few : Finset Uri) (entries : Uri → Entry) (documents : List Document)
    (s : Session) : Prop where
  store : s.store.Roomy few entries
  documents : s.documents = documents

variable {s : Session} {few : Finset Uri} {entries : Uri → Entry} {documents : List Document}
  {uri : Uri} {p : Position} {cancelled : Bool} {q : Query} {qs : List Query}

/-- What is known of documents can be read off their entries. -/
theorem analysis_eq_entry (s : Session) :
    (fun uri => (s.store.analysis uri).1) = fun uri => (s.store.entry uri).analysis :=
  funext fun uri => (Store.analysis_eq s.store uri).trans (Store.analysis_getD s.store uri).symm

/-- Every session is calm, as long as the store has room for its documents. -/
theorem calm (hlinked : s.store.Linked) (hroom : few.card ≤ s.store.capacity + 1)
    (hwithin : ∀ k ∈ s.store.keys, k ∈ few) : s.Calm few s.store.entry s.documents where
  store := { linked := hlinked, room := hroom, within := hwithin, entry := fun _ => rfl }
  documents := rfl

/-- Whether a document is open. -/
theorem isOpen_congr {s' : Session} (h : s'.documents = s.documents) : s'.isOpen = s.isOpen := by
  funext uri
  rw [isOpen, document?, h, ← document?, ← isOpen]

namespace Calm

theorem withStore (h : s.Calm few entries documents) {store : Store}
    (hstore : store.Roomy few entries) : (s.withStore store).Calm few entries documents :=
  ⟨hstore, h.documents⟩

theorem resolveAt (h : s.Calm few entries documents) (p : Position) (cancelled : Bool)
    (hcovers : Store.Covers few (fun v => (entries v).analysis) uri) :
    (s.resolveAt uri p cancelled).1
        = definitionAt? s.isOpen (fun v => (entries v).analysis) uri p cancelled
      ∧ (s.resolveAt uri p cancelled).2.Calm few entries documents := by
  unfold Session.resolveAt definitionAt?
  split
  · exact ⟨rfl, h⟩
  · obtain ⟨hfound, hroomy⟩ := (Store.Roomy.steady few entries).resolveAt h.store p hcovers
    exact ⟨hfound, h.withStore hroomy⟩

theorem definition (h : s.Calm few entries documents) (p : Position) (cancelled : Bool)
    (hcovers : Store.Covers few (fun v => (entries v).analysis) uri) :
    (s.definition uri p cancelled).1
        = (definitionAt? s.isOpen (fun v => (entries v).analysis) uri p cancelled).map
            fun (_, link, _) => link :=
  congrArg (Option.map _) (h.resolveAt p cancelled hcovers).1

theorem hover (h : s.Calm few entries documents) (p : Position) (cancelled : Bool)
    (hcovers : Store.Covers few (fun v => (entries v).analysis) uri) :
    (s.hover uri p cancelled).1
        = (definitionAt? s.isOpen (fun v => (entries v).analysis) uri p cancelled).map
            fun (token, link, element) => ⟨element.markdown token.tagName link, link.origin⟩ :=
  congrArg (Option.map _) (h.resolveAt p cancelled hcovers).1

theorem diagnostics (h : s.Calm few entries documents) (settings : Settings)
    (hcovers : Store.Covers few (fun v => (entries v).analysis) uri) :
    (s.diagnostics uri settings).1 = problemsOf (fun v => (entries v).analysis) uri settings
      ∧ (s.diagnostics uri settings).2.Calm few entries documents := by
  obtain ⟨hfound, hroomy⟩ := (Store.Roomy.steady few entries).diagnose h.store settings hcovers
  refine ⟨(s.bench.fst_diagnose uri settings).trans hfound, ?_, h.documents⟩
  rw [show (s.diagnostics uri settings).2.store = (s.store.diagnose uri settings).2 from
    s.bench.store_diagnose uri settings]
  exact hroomy

/-- **One question** has the answer that can be read off the records, and changes
nothing. -/
theorem ask (h : s.Calm few entries documents)
    (hcovers : Store.Covers few (fun v => (entries v).analysis) q.uri) :
    (s.ask q).1 = q.answer s.isOpen (fun v => (entries v).analysis)
      ∧ (s.ask q).2.Calm few entries documents := by
  cases q with
  | definition uri p cancelled =>
    exact ⟨congrArg Answer.link (h.definition p cancelled hcovers),
      (h.resolveAt p cancelled hcovers).2⟩
  | hover uri p cancelled =>
    exact ⟨congrArg Answer.shown (h.hover p cancelled hcovers),
      (h.resolveAt p cancelled hcovers).2⟩
  | resolve uri token =>
    obtain ⟨hfound, hroomy⟩ := (Store.Roomy.steady few entries).resolve h.store token hcovers
    exact ⟨congrArg Answer.link hfound, h.withStore hroomy⟩
  | diagnostics uri settings =>
    obtain ⟨hfound, hcalm⟩ := h.diagnostics settings hcovers
    exact ⟨congrArg Answer.problems hfound, hcalm⟩

/-- **Many questions** have the answers that can be read off the records, each of them,
and change nothing. -/
theorem askAll (h : s.Calm few entries documents)
    (hcovers : ∀ q ∈ qs, Store.Covers few (fun v => (entries v).analysis) q.uri) :
    (s.askAll qs).1 = qs.map (fun q => q.answer s.isOpen fun v => (entries v).analysis)
      ∧ (s.askAll qs).2.Calm few entries documents := by
  induction qs generalizing s with
  | nil => exact ⟨rfl, h⟩
  | cons q qs ih =>
    obtain ⟨hanswer, hcalm⟩ := h.ask (hcovers q List.mem_cons_self)
    obtain ⟨hanswers, hafter⟩ := ih hcalm fun q' hq' => hcovers q' (List.mem_cons_of_mem _ hq')
    rw [isOpen_congr (hcalm.documents.trans h.documents.symm)] at hanswers
    exact ⟨congrArg₂ List.cons hanswer hanswers, hafter⟩

end Calm

/-- **Questions commute.** As long as the store has room for its documents, those that
are asked for and those that they import, some questions, in whatever order, change
neither the open documents nor what is known of any document, and each of them has the
answer that it would have alone: the one that can be read off the records. In
particular a definition is the own one of the document, or else that of the first import
that has one (`Store.definition?`). -/
theorem queries_commute (s : Session) (qs : List Query) (hlinked : s.store.Linked)
    (hroom : (s.store.keys ++ qs.flatMap s.concerns).toFinset.card ≤ s.store.capacity + 1) :
    (∀ order : List Query, order.Perm qs →
      (s.askAll order).1 = order.map (fun q => (s.ask q).1)
        ∧ (s.askAll order).2.documents = s.documents
        ∧ ∀ uri, ((s.askAll order).2.store.analysis uri).1 = (s.store.analysis uri).1
          ∧ ((s.askAll order).2.store.settings uri).1 = (s.store.settings uri).1)
      ∧ ∀ q ∈ qs, (s.ask q).1 = q.answer s.isOpen fun uri => (s.store.analysis uri).1 := by
  obtain ⟨few, hfew⟩ : ∃ few, few = (s.store.keys ++ qs.flatMap s.concerns).toFinset := ⟨_, rfl⟩
  rw [← hfew] at hroom
  have hknown := s.analysis_eq_entry
  have hcalm : s.Calm few s.store.entry s.documents := calm hlinked hroom fun k hk => by
    rw [hfew]
    exact List.mem_toFinset.2 (List.mem_append_left _ hk)
  have hcovers : ∀ q ∈ qs, Store.Covers few (fun v => (s.store.entry v).analysis) q.uri := by
    intro q hq
    have hmem : ∀ uri ∈ s.concerns q, uri ∈ few := by
      intro uri huri
      rw [hfew]
      exact List.mem_toFinset.2 (List.mem_append_right _ (List.mem_flatMap.2 ⟨q, hq, huri⟩))
    refine ⟨hmem _ List.mem_cons_self, fun r hr edge hedge => hmem _ (List.mem_cons_of_mem _ ?_)⟩
    rw [← hcalm.store.record?] at hr
    rw [hr]
    exact List.mem_map_of_mem hedge
  have hask : ∀ q ∈ qs, (s.ask q).1 = q.answer s.isOpen fun v => (s.store.entry v).analysis :=
    fun q hq => (hcalm.ask (hcovers q hq)).1
  refine ⟨fun order horder => ?_, fun q hq => hknown ▸ hask q hq⟩
  obtain ⟨hanswers, hafter⟩ := hcalm.askAll fun q hq => hcovers q (horder.mem_iff.1 hq)
  refine ⟨?_, hafter.documents, fun uri => ⟨?_, ?_⟩⟩
  · rw [hanswers]
    exact List.map_congr_left fun q hq => (hask q (horder.mem_iff.1 hq)).symm
  · rw [Store.analysis_eq, Store.analysis_eq, hafter.store.record?, hcalm.store.record?]
  · rw [Store.settings_eq, Store.settings_eq, hafter.store.entry]

namespace Sample

/-- The record of a script with two tag names and one import. -/
def importing : Record :=
  ⟨.ofText "/a.js", [⟨Workspace.Sample.importedUri, .ofText "/b.js"⟩], [],
    [⟨⟨⟨0, 0⟩, ⟨0, 20⟩⟩, [⟨.startTagName, ⟨⟨0, 2⟩, ⟨0, 6⟩⟩, "b-b"⟩,
      ⟨.startTagName, ⟨⟨0, 8⟩, ⟨0, 12⟩⟩, "c-c"⟩]⟩]⟩

/-- The record of a script that defines one of them. -/
def defining : Record :=
  ⟨.ofText "/b.js", [], [("b-b", ⟨"B", ⟨⟨1, 6⟩, ⟨1, 7⟩⟩, []⟩)], []⟩

/-- A session in which both are known, and one of the scripts is open. -/
def browsing : Session :=
  ⟨[.ofText Workspace.Sample.uri 1 ""],
    { Workbench.empty 1 with
      store := ((Store.empty 1).setAnalysis Workspace.Sample.uri importing).setAnalysis
        Workspace.Sample.importedUri defining }⟩

theorem linked_browsing : browsing.store.Linked :=
  Store.linked_after (.empty 1) [.refreshed (.ofText Workspace.Sample.uri 1 "") importing,
    .refreshed (.ofText Workspace.Sample.importedUri 1 "") defining]

/-- What is asked: the definition of the one tag name, and the problems. -/
def questions : List Query :=
  [.definition Workspace.Sample.uri ⟨0, 3⟩ false, .diagnostics Workspace.Sample.uri ⟨10⟩]

end Sample

/-- The problems come out the same before and after the definition. -/
theorem queries_commute_swapped :
    Sample.browsing.store.Linked
      ∧ (Sample.browsing.store.keys
          ++ Sample.questions.flatMap Sample.browsing.concerns).toFinset.card
        ≤ Sample.browsing.store.capacity + 1
      ∧ Sample.questions.reverse.Perm Sample.questions
      ∧ (Sample.browsing.askAll Sample.questions.reverse).1
        = [.problems [.undefined ⟨.startTagName, ⟨⟨0, 8⟩, ⟨0, 12⟩⟩, "c-c"⟩],
          .link (some ⟨⟨⟨0, 2⟩, ⟨0, 6⟩⟩, Workspace.Sample.importedUri, ⟨⟨1, 6⟩, ⟨1, 7⟩⟩⟩)] := by
  have hconcerned : Sample.browsing.store.keys ++ Sample.questions.flatMap Sample.browsing.concerns
      = [Workspace.Sample.uri, Workspace.Sample.importedUri, Workspace.Sample.uri,
        Workspace.Sample.importedUri, Workspace.Sample.uri, Workspace.Sample.importedUri] := by
    cbv
  have hroom : (Sample.browsing.store.keys
      ++ Sample.questions.flatMap Sample.browsing.concerns).toFinset.card
        ≤ Sample.browsing.store.capacity + 1 := by
    rw [hconcerned]
    decide
  have hperm : Sample.questions.reverse.Perm Sample.questions := List.reverse_perm _
  obtain ⟨horder, -⟩ :=
    queries_commute Sample.browsing Sample.questions Sample.linked_browsing hroom
  refine ⟨Sample.linked_browsing, hroom, hperm, (horder _ hperm).1.trans ?_⟩
  cbv

end Session

end ElementLens
