/-
Work on documents and files.

A workspace is a session with the files around it. Editors and file systems act
on it in any order (`Workspace.Step`). For each step the uses that it makes of
the store are listed, and what they are is bounded by the step
(`Workspace.Allows`): records are given to the document that is refreshed, and to
the files it imports.

* **`Workspace.proceeds_step`** — what one step does;
* **`Workspace.proceeds_run`** — what many steps do;
* **`Workspace.linked_run`** — the store is well-formed between two steps.
-/
import ElementLens.Proofs.Store.Traces
import ElementLens.Session

namespace ElementLens

/-- A refresh of an open document is an analysis and a look at its problems. -/
theorem Session.fst_refresh {s : Session} {uri : Uri} {d : Document} (loader : Loader)
    (files : FileSystem) (settings : Settings) (hopen : s.document? uri = some d) :
    (s.refresh loader files uri settings).1
      = some ((s.bench.analyze loader files d true).2.diagnose uri settings).1 := by
  simp only [refresh, hopen, diagnostics]

theorem Session.bench_refresh {s : Session} {uri : Uri} {d : Document} (loader : Loader)
    (files : FileSystem) (settings : Settings) (hopen : s.document? uri = some d) :
    (s.refresh loader files uri settings).2.bench
      = ((s.bench.analyze loader files d true).2.diagnose uri settings).2 := by
  simp only [refresh, hopen, diagnostics]

theorem Session.document?_refresh (s : Session) (loader : Loader) (files : FileSystem) (uri : Uri)
    (settings : Settings) : (s.refresh loader files uri settings).2.document? = s.document? := by
  unfold refresh
  cases s.document? uri <;> rfl

theorem Workbench.analyzer_diagnose (w : Workbench) (uri : Uri) (settings : Settings) :
    (w.diagnose uri settings).2.analyzer = w.analyzer := by
  unfold diagnose
  simp only
  split <;> rfl

/-- The open documents with what is known of them, and the files. -/
structure Workspace where
  session : Session
  files : FileSystem

namespace Workspace

open Store (Use)

/-- What may happen next. -/
inductive Step where
  | openDocument (uri : Uri) (version : Int) (text : String)
  | change (uri : Uri) (version : Int) (edits : List TextEdit)
  | close (uri : Uri)
  | refresh (uri : Uri) (settings : Settings)
  | diagnostics (uri : Uri) (settings : Settings)
  | definition (uri : Uri) (p : Position) (cancelled : Bool)
  | hover (uri : Uri) (p : Position) (cancelled : Bool)
  | resolve (uri : Uri) (token : Token)
  | write (path : Path) (content : FileContent)
  | remove (path : Path)
  | clear

/-- Before the first step: nothing is open and nothing is known. -/
def start (parse? : List Char → Option (Syntax.Tree Script.Kind)) (capacity : Nat)
    (files : FileSystem) : Workspace :=
  ⟨⟨[], { Workbench.empty capacity with analyzer := .new parse? }⟩, files⟩

/-- The workbench of the session. -/
abbrev bench (w : Workspace) : Workbench := w.session.bench

/-- The store of the session. -/
abbrev store (w : Workspace) : Store := w.session.store

/-- What a step does. -/
def step (loader : Loader) (w : Workspace) : Step → Workspace
  | .openDocument uri version text =>
    { w with session := w.session.openDocument uri version text }
  | .change uri version edits => { w with session := (w.session.change uri version edits).2 }
  | .close uri => { w with session := w.session.close uri }
  | .refresh uri settings =>
    { w with session := (w.session.refresh loader w.files uri settings).2 }
  | .diagnostics uri settings => { w with session := (w.session.diagnostics uri settings).2 }
  | .definition uri p cancelled => { w with session := (w.session.definition uri p cancelled).2 }
  | .hover uri p cancelled => { w with session := (w.session.hover uri p cancelled).2 }
  | .resolve uri token =>
    { w with session := w.session.withStore (w.session.store.resolve uri token).2 }
  | .write path content => { w with files := w.files.write path content }
  | .remove path => { w with files := w.files.remove path }
  | .clear => { w with session := w.session.withStore w.session.store.clear }

/-- The uses that a refresh makes of the store. -/
def usesToRefresh (loader : Loader) (w : Workspace) (uri : Uri) (settings : Settings) : List Use :=
  match w.session.document? uri with
  | none => []
  | some d =>
    w.bench.usesToAnalyze loader w.files d
      ++ (w.bench.analyze loader w.files d true).2.store.usesToDiagnose uri settings

/-- The uses that a step makes of the store. -/
def usesOf (loader : Loader) (w : Workspace) : Step → List Use
  | .openDocument _ _ _ | .change _ _ _ | .write _ _ | .remove _ => []
  | .close uri => [.unset uri]
  | .refresh uri settings => w.usesToRefresh loader uri settings
  | .diagnostics uri settings => w.store.usesToDiagnose uri settings
  | .definition uri p cancelled | .hover uri p cancelled =>
    if cancelled || !w.session.isOpen uri then [] else w.store.usesToResolveAt uri p
  | .resolve uri token => w.store.usesToResolve uri token
  | .clear => [.cleared]

/-- The workspace after some steps. -/
def run (loader : Loader) (w : Workspace) (steps : List Step) : Workspace :=
  steps.foldl (step loader) w

/-- The uses that some steps make of the store. -/
def uses (loader : Loader) (w : Workspace) : List Step → List Use
  | [] => []
  | a :: steps => w.usesOf loader a ++ (w.step loader a).uses loader steps

/-- A refresh of an open document whose analysis has a record. -/
structure Refreshes (loader : Loader) (w : Workspace) (a : Step) (d : Document) (r : Record) :
    Prop where
  step : ∃ settings, a = .refresh d.uri settings
  isOpen : w.session.document? d.uri = some d
  analyzed : (w.bench.analyze loader w.files d true).1 = some r

/-- What a step may do with the store. A document gets a record when it is
refreshed, or from the text of a file, when a document that imports the file is
refreshed. -/
def Allows (loader : Loader) (w : Workspace) (a : Step) : Use → Prop
  | .looked _ => True
  | .unset uri => a = .close uri
  | .refreshed d r => w.Refreshes loader a d r
  | .imported d _ => ∃ importer r, w.Refreshes loader a importer r
    ∧ ∃ edge ∈ r.imports, ∃ text : String, w.files.read edge.filePath = .ok text
      ∧ d = Document.ofText edge.uri 1 text
  | .cleared => a = .clear

variable {loader : Loader} {w : Workspace} {steps : List Step} {a : Step} {u : Use} {uri : Uri}

@[simp] theorem run_nil : w.run loader [] = w := rfl

@[simp] theorem run_cons : w.run loader (a :: steps) = (w.step loader a).run loader steps := rfl

theorem run_append (more : List Step) :
    w.run loader (steps ++ more) = (w.run loader steps).run loader more :=
  List.foldl_append ..

theorem uses_append (more : List Step) :
    w.uses loader (steps ++ more)
      = w.uses loader steps ++ (w.run loader steps).uses loader more := by
  induction steps generalizing w with
  | nil => rfl
  | cons a steps ih => simp [uses, ih]

/-- A use is made in some step. -/
theorem exists_step_of_mem_uses (hu : u ∈ w.uses loader steps) :
    ∃ before a after, steps = before ++ a :: after
      ∧ u ∈ (w.run loader before).usesOf loader a := by
  induction steps generalizing w with
  | nil => exact absurd hu List.not_mem_nil
  | cons a steps ih =>
    rcases List.mem_append.1 hu with hu | hu
    · exact ⟨[], a, steps, rfl, hu⟩
    · obtain ⟨before, b, after, rfl, hmem⟩ := ih hu
      exact ⟨a :: before, b, after, rfl, hmem⟩

theorem uri_of_document? {s : Session} {d : Document} (h : s.document? uri = some d) :
    d.uri = uri := by
  simpa using List.find?_some h

theorem proceeds_resolveAt (p : Position) (cancelled : Bool) :
    w.bench.Proceeds (w.Allows loader a)
      (if cancelled || !w.session.isOpen uri then [] else w.store.usesToResolveAt uri p)
      (w.session.resolveAt uri p cancelled).2.bench := by
  unfold Session.resolveAt
  split
  · exact .nil rfl (.of_eq rfl rfl)
  · exact .of_looks (w.store.looks_resolveAt uri p) fun _ => trivial

theorem proceeds_refresh (uri : Uri) (settings : Settings) :
    w.bench.Proceeds (w.Allows loader (.refresh uri settings)) (w.usesToRefresh loader uri settings)
      (w.session.refresh loader w.files uri settings).2.bench := by
  unfold usesToRefresh
  cases hopen : w.session.document? uri with
  | none =>
    rw [Session.refresh, hopen]
    exact .nil rfl (.of_eq rfl rfl)
  | some d =>
    have huri := uri_of_document? hopen
    -- the records are those of the document and of its imports
    have hallows : ∀ u, w.bench.OfDocument loader w.files d u →
        w.Allows loader (.refresh uri settings) u := by
      rintro u ⟨r, hok, hu⟩
      have hrefreshes : w.Refreshes loader (.refresh uri settings) d r := {
        step := ⟨settings, by rw [huri]⟩
        isOpen := by rw [huri]; exact hopen
        analyzed := by rw [Workbench.fst_analyze, hok]; rfl }
      rcases hu with rfl | hu
      · exact hrefreshes
      · cases u with
        | looked v => trivial
        | imported d' r' => exact ⟨d, r, hrefreshes, hu⟩
        | unset v | refreshed d' r' | cleared => exact hu.elim
    have hanalyze := (w.bench.proceeds_analyze loader w.files d).mono hallows
    have hdiagnose (b : Workbench) : b.Proceeds (w.Allows loader (.refresh uri settings))
        (b.store.usesToDiagnose uri settings) (b.diagnose uri settings).2 :=
      b.proceeds_diagnose uri settings fun _ => trivial
    rw [Session.bench_refresh loader w.files settings hopen]
    exact hanalyze.append (hdiagnose _)

/-- **What one step does with the store.** -/
theorem proceeds_step (loader : Loader) (w : Workspace) (a : Step) :
    w.bench.Proceeds (w.Allows loader a) (w.usesOf loader a) (w.step loader a).bench := by
  cases a with
  | openDocument uri version text | change uri version edits | write path content | remove path =>
    exact .nil rfl (.of_eq rfl rfl)
  | close uri => exact .single rfl rfl (.of_eq rfl rfl) rfl
  | refresh uri settings => exact proceeds_refresh uri settings
  | diagnostics uri settings => exact w.bench.proceeds_diagnose uri settings fun _ => trivial
  | definition uri p cancelled => exact proceeds_resolveAt p cancelled
  | hover uri p cancelled => exact proceeds_resolveAt p cancelled
  | resolve uri token => exact .of_looks (w.store.looks_resolve uri token) fun _ => trivial
  | clear => exact .single rfl rfl (.of_eq rfl rfl) rfl

/-- **What many steps do with the store.** -/
theorem proceeds_run (loader : Loader) (w : Workspace) (steps : List Step) :
    w.bench.Proceeds (fun _ => True) (w.uses loader steps) (w.run loader steps).bench := by
  induction steps generalizing w with
  | nil => exact .nil rfl (.of_eq rfl rfl)
  | cons a steps ih => exact ((w.proceeds_step loader a).mono fun _ _ => trivial).append (ih _)

/-- The store stays well-formed. -/
theorem linked_run (h : w.store.Linked) (loader : Loader) (steps : List Step) :
    (w.run loader steps).store.Linked := by
  have hstore : (w.run loader steps).store = w.store.after (w.uses loader steps) :=
    (w.proceeds_run loader steps).store
  rw [hstore]
  exact Store.linked_after h _

end Workspace

/-! ### A script that imports another one

    import'./b.js'html`<b-b><c-c>`

and the imported one, `b.js`:

    //customElements.define('b-b', B)
    class B{} -/

namespace Workspace.Sample

/-- The tree of the script with the template. -/
def importing : Syntax.Tree Script.Kind :=
  .branch (.construct .program)
    [.branch (.construct .importStatement)
      [.leaf (.terminal (.literal "import")) "import",
        .branch (.construct .string) [.leaf (.terminal .name) "'./b.js'"]],
      .branch (.construct .call)
        [.leaf (.terminal .name) "html",
          .branch (.construct .template)
            [.leaf (.terminal (.literal "`")) "`",
              .leaf (.terminal .templateText) "<b-b><c-c>",
              .leaf (.terminal (.literal "`")) "`"]]]

/-- The tree of the imported script. -/
def imported : Syntax.Tree Script.Kind :=
  .branch (.construct .program)
    [.leaf (.terminal .comment) "//customElements.define('b-b', B)", .leaf .blank "\n",
      .branch (.construct .classDeclaration)
        [.leaf (.terminal (.literal "class")) "class", .leaf .blank " ",
          .leaf (.terminal .name) "B",
          .branch (.construct .classBody)
            [.leaf (.terminal (.literal "\x7b")) "\x7b",
              .leaf (.terminal (.literal "\x7d")) "\x7d"]]]

/-- Reads the two scripts. -/
def parse? (cs : List Char) : Option (Syntax.Tree Script.Kind) :=
  if importing.text = cs then some importing
  else if imported.text = cs then some imported
  else none

/-- Loads a tokenizer that finds the two start tags of the template. -/
def loader : Loader := fun _ => .ok fun _ =>
  .reported [⟨.startTagName, 0, 1, 4, "b-b"⟩, ⟨.startTagName, 0, 6, 9, "c-c"⟩] none

/-- Where the script with the template is. -/
def uri : Uri := ⟨"file", some .empty, .segments ["a.js"], none, none⟩

/-- Where the imported script is. -/
def importedUri : Uri := ⟨"file", some .empty, .segments ["b.js"], none, none⟩

/-- The script with the template as a document. -/
def document : Document := .ofText uri 1 (String.ofList importing.text)

/-- The imported script as a file. -/
def file : FileContent := .text (String.ofList imported.text)

end Workspace.Sample

end ElementLens
