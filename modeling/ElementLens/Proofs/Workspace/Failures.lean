/-
Analyses that fail.

An analysis of a document fails for one of five reasons (`Workbench.Fails`), and
then the store is left alone. Otherwise the record of the document is stored, and
every module it imports has its turn, whatever became of those before it:

* **`Workbench.analyzeSingle_error_iff`** — when an analysis fails;
* **`Workbench.record?_materialize`** — the turn of one imported module;
* **`Workbench.analyze_all_or_nothing`** — what an analysis does in all;
* **`Workspace.idle_run`** — between two steps no module is being read.
-/
import ElementLens.Proofs.Component.Failures
import ElementLens.Proofs.Workspace.Run
import Mathlib

namespace ElementLens

theorem ok_of_toOption {ε α : Type} {result : Except ε α} {a : α}
    (h : result.toOption = some a) : result = .ok a := by
  cases result with
  | error e => exact absurd h (by simp [Except.toOption])
  | ok b => exact congrArg Except.ok (Option.some.inj h)

namespace Workbench

/-- The tokenizer of an analysis: the one that there is, or the one that the
loader has when it is asked next. -/
def tokenizer? (w : Workbench) (loader : Loader) : Option Markup.Tokenizer :=
  w.analyzer.tokenizer.or (loader w.loads).toOption

/-- Why an analysis fails: the document is too long, there is no tokenizer and none
can be loaded, or nothing can be extracted. -/
inductive Fails (w : Workbench) (loader : Loader) (d : Document) : Prop
  | oversized (hlong : longestDocument < d.utf16Length)
  | unavailable (hnone : w.analyzer.tokenizer = none) (e : Markup.TokenizerError)
      (hload : loader w.loads = .error e)
  | notAFile (hpath : d.uri.toPath? = none)
  | notAScript (hparse : w.analyzer.parse? d.text.toList = none)
  | brokeDown (t : Markup.Tokenizer) (ht : w.tokenizer? loader = some t)
      (tree : Syntax.Tree Script.Kind) (hparse : w.analyzer.parse? d.text.toList = some tree)
      (n : ScriptNode) (hn : n ∈ Syntax.Node.preorder ⟨0, tree⟩) (hbreaks : BreaksDownAt t n)

/-- The record of an imported module: there is one if its file can be read, is
not too long, and a record can be extracted. -/
def recordOfFile? (parse? : List Char → Option (Syntax.Tree Script.Kind)) (t : Markup.Tokenizer)
    (files : FileSystem) (edge : ImportEdge) : Option Record :=
  match files.read edge.filePath with
  | .error _ => none
  | .ok text =>
    let d := Document.ofText edge.uri 1 text
    if longestDocument < d.utf16Length then none else (extractBy parse? d t).1.toOption

/-- The record of a document: there is one if the document is not too long, and a
record can be extracted. -/
def recordOf? (parse? : List Char → Option (Syntax.Tree Script.Kind)) (t : Markup.Tokenizer)
    (d : Document) : Option Record :=
  if longestDocument < d.utf16Length then none else (extractBy parse? d t).1.toOption

variable {w : Workbench} {loader : Loader} {files : FileSystem} {d : Document}
  {edge : ImportEdge} {t : Markup.Tokenizer} {r : Record}

/-! ### The document itself -/

theorem loadTokenizer_eq (w : Workbench) (loader : Loader) :
    (∃ e, w.analyzer.tokenizer = none ∧ loader w.loads = .error e
        ∧ (w.loadTokenizer loader).1 = .error (.unavailable e)
        ∧ (w.loadTokenizer loader).2.analyzer = w.analyzer)
      ∨ ∃ t, w.tokenizer? loader = some t ∧ (w.loadTokenizer loader).1 = .ok t
        ∧ (w.loadTokenizer loader).2.analyzer = { w.analyzer with tokenizer := some t } := by
  unfold loadTokenizer tokenizer?
  cases htokenizer : w.analyzer.tokenizer with
  | some t =>
    have hsame : w.analyzer = { w.analyzer with tokenizer := some t } := by rw [← htokenizer]
    exact .inr ⟨t, rfl, rfl, hsame⟩
  | none =>
    cases hload : loader w.loads with
    | error e => exact .inl ⟨e, rfl, rfl, rfl, rfl⟩
    | ok t => exact .inr ⟨t, rfl, rfl, rfl⟩

/-- An analysis fails for one of the five reasons, or finds the record that the
parser and the tokenizer yield. -/
theorem analyzeSingle_fails_or_finds (w : Workbench) (loader : Loader) (d : Document) :
    (w.Fails loader d ∧ (∃ e, (w.analyzeSingle loader d).1 = .error e)
        ∧ (w.analyzeSingle loader d).2.analyzer.importing = w.analyzer.importing)
      ∨ ∃ t r, ¬ w.Fails loader d ∧ w.tokenizer? loader = some t
        ∧ d.utf16Length ≤ longestDocument ∧ (extractBy w.analyzer.parse? d t).1 = .ok r
        ∧ (w.analyzeSingle loader d).1 = .ok r
        ∧ (w.analyzeSingle loader d).2.analyzer = { w.analyzer with tokenizer := some t } := by
  unfold analyzeSingle
  by_cases hlong : longestDocument < d.utf16Length
  · simp only [hlong, if_true]
    exact .inl ⟨.oversized hlong, ⟨_, rfl⟩, trivial⟩
  simp only [hlong, if_false]
  obtain ⟨e, hnone, herror, hload, hkept⟩ | ⟨t, ht, hload, hkept⟩ := w.loadTokenizer_eq loader
  · rcases hloaded : w.loadTokenizer loader with ⟨result, w₁⟩
    rw [hloaded] at hload hkept
    obtain rfl : result = .error (.unavailable e) := hload
    exact .inl ⟨.unavailable hnone e herror, ⟨_, rfl⟩, congrArg Analyzer.importing hkept⟩
  · rcases hloaded : w.loadTokenizer loader with ⟨result, w₁⟩
    rw [hloaded] at hload hkept
    obtain rfl : result = .ok t := hload
    simp only at hkept
    have hparse : w₁.analyzer.parse? = w.analyzer.parse? := by rw [hkept]
    simp only [hparse]
    have herror := extractBy_error_iff w.analyzer.parse? t d
    rcases hextract : extractBy w.analyzer.parse? d t with ⟨result, stops⟩
    rw [hextract] at herror
    have hnoted := (w₁.foldl_note stops).2
    cases result with
    | error e =>
      left
      refine ⟨?_, ⟨e, rfl⟩, by rw [hnoted, hkept]⟩
      cases herror.1 ⟨e, rfl⟩ with
      | notAFile hpath => exact .notAFile hpath
      | notAScript hparse => exact .notAScript hparse
      | brokeDown tree hparse n hn hbreaks => exact .brokeDown t ht tree hparse n hn hbreaks
    | ok r =>
      have hextractable : ¬ Unextractable w.analyzer.parse? t d := fun h => by
        simpa using herror.2 h
      refine .inr ⟨t, r, ?_, ht, Nat.le_of_not_lt hlong, hextract ▸ rfl, rfl, hnoted.trans hkept⟩
      -- none of the five reasons applies
      rintro (hlong' | ⟨hnone, e, hload⟩ | hpath | hparse | ⟨t', ht', tree, hparse, n, hn, hbreaks⟩)
      · exact hlong hlong'
      · rw [tokenizer?, hnone, hload] at ht
        exact absurd ht (by simp [Except.toOption])
      · exact hextractable (.notAFile hpath)
      · exact hextractable (.notAScript hparse)
      · obtain rfl : t = t' := Option.some.inj (ht.symm.trans ht')
        exact hextractable (.brokeDown tree hparse n hn hbreaks)

/-- **When an analysis fails.** -/
theorem analyzeSingle_error_iff :
    (∃ e, (w.analyzeSingle loader d).1 = .error e) ↔ w.Fails loader d := by
  obtain ⟨hfails, herror, -⟩ | ⟨t, r, hnot, -, -, -, hok, -⟩ :=
    w.analyzeSingle_fails_or_finds loader d
  · exact iff_of_true herror hfails
  · refine iff_of_false (fun ⟨e, he⟩ => ?_) hnot
    rw [hok] at he
    exact absurd he (by simp)

/-- With a tokenizer, an analysis finds the record of the document, if there is one.
The tokenizer is kept, unless the document was too long for anything to be done. -/
theorem analyzeSingle_of_tokenizer? (d : Document) (ht : w.tokenizer? loader = some t) :
    (w.analyzeSingle loader d).1.toOption = recordOf? w.analyzer.parse? t d
      ∧ (longestDocument < d.utf16Length ∧ (w.analyzeSingle loader d).2 = w
        ∨ d.utf16Length ≤ longestDocument
          ∧ (w.analyzeSingle loader d).2.analyzer = { w.analyzer with tokenizer := some t }) := by
  unfold analyzeSingle recordOf?
  by_cases hlong : longestDocument < d.utf16Length
  · simp only [hlong, if_true]
    exact ⟨rfl, .inl ⟨trivial, trivial⟩⟩
  simp only [hlong, if_false]
  obtain ⟨e, hnone, herror, -⟩ | ⟨t', ht', hload, hkept⟩ := w.loadTokenizer_eq loader
  · rw [tokenizer?, hnone, herror] at ht
    exact absurd ht (by simp [Except.toOption])
  · obtain rfl : t = t' := Option.some.inj (ht.symm.trans ht')
    rcases hloaded : w.loadTokenizer loader with ⟨result, w₁⟩
    rw [hloaded] at hload hkept
    obtain rfl : result = .ok t := hload
    simp only at hkept
    have hparse : w₁.analyzer.parse? = w.analyzer.parse? := by rw [hkept]
    simp only [hparse]
    rcases extractBy w.analyzer.parse? d t with ⟨result, stops⟩
    have hnoted := (w₁.foldl_note stops).2.trans hkept
    cases result <;> exact ⟨rfl, .inr ⟨Nat.le_of_not_lt hlong, hnoted⟩⟩

/-! ### Imported modules -/

/-- An analyzer that has its tokenizer stays as it is. -/
theorem analyzer_analyzeSingle (loader : Loader) (d : Document)
    (ht : w.analyzer.tokenizer = some t) :
    (w.analyzeSingle loader d).2.analyzer = w.analyzer
      ∧ (w.analyzeSingle loader d).1.toOption = recordOf? w.analyzer.parse? t d := by
  have htokenizer : w.tokenizer? loader = some t := by rw [tokenizer?, ht, Option.some_or]
  obtain ⟨hfound, ⟨-, hsame⟩ | ⟨-, hanalyzer⟩⟩ := analyzeSingle_of_tokenizer? d htokenizer
  · exact ⟨congrArg analyzer hsame, hfound⟩
  · refine ⟨hanalyzer.trans ?_, hfound⟩
    rw [← ht]

theorem recordOfFile?_ok {parse? : List Char → Option (Syntax.Tree Script.Kind)} {text : String}
    (hread : files.read edge.filePath = .ok text) :
    recordOfFile? parse? t files edge = recordOf? parse? t (.ofText edge.uri 1 text) := by
  simp only [recordOfFile?, hread]
  rfl

theorem readImport_eq (loader : Loader) (files : FileSystem) (edge : ImportEdge)
    (ht : w.analyzer.tokenizer = some t) :
    (w.readImport loader files edge).analyzer = w.analyzer
      ∧ (w.readImport loader files edge).store.record? edge.uri
        = (recordOfFile? w.analyzer.parse? t files edge).or (w.store.record? edge.uri) := by
  unfold readImport
  cases hread : files.read edge.filePath with
  | error e =>
    simp only [recordOfFile?, hread]
    exact ⟨rfl, rfl⟩
  | ok text =>
    obtain ⟨hkept, hfound⟩ := analyzer_analyzeSingle loader (Document.ofText edge.uri 1 text) ht
    obtain ⟨-, hcases⟩ := w.analyzeSingle_cases loader (Document.ofText edge.uri 1 text)
    rw [recordOfFile?_ok hread, ← hfound]
    simp only
    rcases hresult : w.analyzeSingle loader (Document.ofText edge.uri 1 text) with ⟨result, w₁⟩
    rw [hresult] at hkept hcases
    obtain ⟨e, herror, hstore⟩ | ⟨r, hok, hstore, -⟩ := hcases
    · obtain rfl : result = .error e := herror
      exact ⟨hkept, congrArg (Store.record? · edge.uri) hstore⟩
    · obtain rfl : result = .ok r := hok
      refine ⟨hkept, ?_⟩
      rw [show w₁.store = w.store.setAnalysis edge.uri r from hstore,
        Store.record?_setAnalysis_self]
      rfl

/-- What was begun is ended. -/
theorem analyzer_endImport {w' : Workbench} {uri : Uri} (hidle : w.analyzer.importing = [])
    (hread : w'.analyzer = (w.beginImport uri).analyzer) :
    (w'.endImport uri).analyzer = w.analyzer := by
  unfold endImport
  rw [hread]
  unfold beginImport
  rcases hanalyzer : w.analyzer with ⟨parse?, tokenizer, importing⟩
  rw [hanalyzer] at hidle
  simp only at hidle
  simp [hidle]

/-- **The turn of an imported module.** It keeps the record that it has, or gets
the one of its file, if there is one; and it is not being read any more. -/
theorem record?_materialize (loader : Loader) (files : FileSystem) (edge : ImportEdge)
    (ht : w.analyzer.tokenizer = some t) (hidle : w.analyzer.importing = []) :
    (materialize loader files w edge).analyzer = w.analyzer
      ∧ (materialize loader files w edge).store.record? edge.uri
        = (w.store.record? edge.uri).or (recordOfFile? w.analyzer.parse? t files edge) := by
  obtain ⟨w₁, hw₁⟩ : ∃ w₁, w₁ = { w with store := (w.store.lookup edge.uri).2 } := ⟨_, rfl⟩
  have hkept : w₁.analyzer = w.analyzer := by rw [hw₁]
  have hrecord : w₁.store.record? edge.uri = w.store.record? edge.uri := by
    rw [hw₁]
    exact w.store.record?_lookup_self edge.uri
  have hknown : (w.store.hasAnalysis edge.uri).1 = (w.store.record? edge.uri).isSome := by
    rw [Store.hasAnalysis_fst, Store.record?_lookup_self]
  unfold materialize
  simp only [hknown, show { w with store := (w.store.hasAnalysis edge.uri).2 } = w₁ from hw₁.symm,
    hidle, List.contains_nil, Bool.or_false]
  cases hold : w.store.record? edge.uri with
  | some r =>
    rw [Option.isSome_some, if_pos rfl]
    exact ⟨hkept, hrecord.trans hold⟩
  | none =>
    rw [if_neg (by simp)]
    obtain ⟨hread, hfound⟩ := readImport_eq (w := w₁.beginImport edge.uri) (t := t) loader
      files edge (by rw [beginImport]; simpa [hkept] using ht)
    refine ⟨(analyzer_endImport (by rw [hkept, hidle]) hread).trans hkept, ?_⟩
    rw [Option.none_or]
    refine hfound.trans ?_
    rw [show (w₁.beginImport edge.uri).store = w₁.store from rfl, hrecord, hold, Option.or_none,
      show (w₁.beginImport edge.uri).analyzer.parse? = w₁.analyzer.parse? from rfl, hkept]

/-- Imported modules, whatever becomes of them, leave the analyzer as it is. -/
theorem analyzer_foldl_materialize (loader : Loader) (files : FileSystem)
    (ht : w.analyzer.tokenizer = some t) (hidle : w.analyzer.importing = [])
    (edges : List ImportEdge) :
    (edges.foldl (materialize loader files) w).analyzer = w.analyzer := by
  induction edges generalizing w with
  | nil => rfl
  | cons edge edges ih =>
    have hkept := (record?_materialize loader files edge ht hidle).1
    rw [List.foldl_cons, ih (by rw [hkept, ht]) (by rw [hkept, hidle]), hkept]

/-! ### All or nothing -/

/-- An analysis finds a record: the one that the parser and the tokenizer yield.
It is stored, and if imported modules are asked for and there are templates, each of
these modules has its turn. -/
structure Completes (loader : Loader) (files : FileSystem) (w : Workbench) (d : Document)
    (parseImports : Bool) (t : Markup.Tokenizer) (r : Record) : Prop where
  tokenizer : w.tokenizer? loader = some t
  extracted : (extractBy w.analyzer.parse? d t).1 = .ok r
  result : (w.analyze loader files d parseImports).1 = some r
  stored : (w.analyzeSingle loader d).2.store = w.store.setAnalysis d.uri r
  last : (w.analyze loader files d parseImports).2
    = if parseImports && !r.templates.isEmpty then
        r.imports.foldl (materialize loader files) (w.analyzeSingle loader d).2
      else (w.analyzeSingle loader d).2
  turns : ∀ before edge after, r.imports = before ++ edge :: after →
    let w' := before.foldl (materialize loader files) (w.analyzeSingle loader d).2
    (materialize loader files w' edge).store.record? edge.uri
      = (w'.store.record? edge.uri).or (recordOfFile? w.analyzer.parse? t files edge)

/-- After the document, the modules that it imports have their turns. -/
theorem snd_analyze (files : FileSystem) (parseImports : Bool)
    (hok : (w.analyzeSingle loader d).1 = .ok r) :
    (w.analyze loader files d parseImports).2
      = if parseImports && !r.templates.isEmpty then
          r.imports.foldl (materialize loader files) (w.analyzeSingle loader d).2
        else (w.analyzeSingle loader d).2 := by
  unfold analyze
  rcases hresult : w.analyzeSingle loader d with ⟨result, w₁⟩
  obtain rfl : result = .ok r := by rw [← hok, hresult]
  simp only
  split <;> rfl

/-- After an analysis no module is being read, whether it fails or not. -/
theorem idle_analyze (loader : Loader) (files : FileSystem) (d : Document) (parseImports : Bool)
    (hidle : w.analyzer.importing = []) :
    (w.analyze loader files d parseImports).2.analyzer.importing = [] := by
  obtain ⟨-, ⟨e, herror⟩, hkept⟩ | ⟨t, r, -, -, -, -, hok, hkept⟩ :=
    w.analyzeSingle_fails_or_finds loader d
  · have hlast : (w.analyze loader files d parseImports).2
        = (w.analyzeSingle loader d).2.note (.skipped d.uri e) := by
      unfold analyze
      rcases hresult : w.analyzeSingle loader d with ⟨result, w₁⟩
      obtain rfl : result = .error e := by rw [← herror, hresult]
      rfl
    rw [hlast]
    exact hkept.trans hidle
  · have htokenizer : (w.analyzeSingle loader d).2.analyzer.tokenizer = some t := by rw [hkept]
    have hstill : (w.analyzeSingle loader d).2.analyzer.importing = [] := by rw [hkept, ← hidle]
    rw [snd_analyze files parseImports hok]
    split
    · rw [analyzer_foldl_materialize loader files htokenizer hstill, hstill]
    · exact hstill

theorem completes_of_not_fails (hidle : w.analyzer.importing = []) (hnot : ¬ w.Fails loader d)
    (files : FileSystem) (parseImports : Bool) :
    ∃ t r, w.Completes loader files d parseImports t r
      ∧ (w.analyze loader files d parseImports).2.analyzer = { w.analyzer with tokenizer := some t } := by
  obtain ⟨hfails, -⟩ | ⟨t, r, -, ht, -, hextract, hok, hkept⟩ :=
    w.analyzeSingle_fails_or_finds loader d
  · exact absurd hfails hnot
  have hstore := store_analyzeSingle hok
  have hlast := snd_analyze files parseImports hok
  have htokenizer : (w.analyzeSingle loader d).2.analyzer.tokenizer = some t := by rw [hkept]
  have hstill : (w.analyzeSingle loader d).2.analyzer.importing = [] := by rw [hkept, ← hidle]
  have hall (edges : List ImportEdge) := analyzer_foldl_materialize loader files htokenizer
    hstill edges
  refine ⟨t, r, ⟨ht, hextract, by rw [fst_analyze, hok]; rfl, hstore, hlast, ?_⟩, ?_⟩
  · intro before edge after _
    have hturn := (record?_materialize (t := t) loader files edge
      (by rw [hall before, htokenizer]) (by rw [hall before, hstill])).2
    rw [hall before, hkept] at hturn
    exact hturn
  · rw [hlast]
    split
    · rw [hall, hkept]
    · exact hkept

/-- **An analysis does all or nothing.** It has no record if and only if it fails
for one of the five reasons, and then the store is as it was. Otherwise it finds the
record of the document, and whatever becomes of an imported module, the record stays
the same and the next module has its turn. In the end no module is being read. -/
theorem analyze_all_or_nothing (w : Workbench) (loader : Loader) (files : FileSystem)
    (d : Document) (parseImports : Bool) (hidle : w.analyzer.importing = []) :
    ((w.analyze loader files d parseImports).1 = none ↔ w.Fails loader d)
      ∧ (w.Fails loader d → (w.analyze loader files d parseImports).2.store = w.store)
      ∧ (¬ w.Fails loader d → ∃ t r, w.Completes loader files d parseImports t r)
      ∧ (w.analyze loader files d parseImports).2.analyzer.importing = [] := by
  by_cases hfails : w.Fails loader d
  · obtain ⟨-, ⟨e, herror⟩, himporting⟩ | ⟨t, r, hnot, -⟩ :=
      w.analyzeSingle_fails_or_finds loader d
    · obtain ⟨-, ⟨-, -, hstore⟩ | ⟨r, hok, -⟩⟩ := w.analyzeSingle_cases loader d
      · have hnone : w.analyze loader files d parseImports
            = (none, (w.analyzeSingle loader d).2.note (.skipped d.uri e)) := by
          unfold analyze
          rcases hresult : w.analyzeSingle loader d with ⟨result, w₁⟩
          obtain rfl : result = .error e := by rw [← herror, hresult]
          rfl
        rw [hnone]
        exact ⟨iff_of_true rfl hfails, fun _ => hstore, fun hnot => absurd hfails hnot,
          himporting.trans hidle⟩
      · rw [hok] at herror
        exact absurd herror (by simp)
    · exact absurd hfails hnot
  · obtain ⟨t, r, hcompletes, hkept⟩ := completes_of_not_fails hidle hfails files parseImports
    refine ⟨iff_of_false ?_ hfails, fun h => absurd h hfails, fun _ => ⟨t, r, hcompletes⟩, ?_⟩
    · rw [hcompletes.result]
      exact Option.some_ne_none r
    · rw [hkept]
      exact hidle

end Workbench

namespace Workspace

variable {w : Workspace}

theorem idle_step (hidle : w.bench.analyzer.importing = []) (loader : Loader) (a : Step) :
    (w.step loader a).bench.analyzer.importing = [] := by
  have hresolve (uri : Uri) (p : Position) (cancelled : Bool) :
      (w.session.resolveAt uri p cancelled).2.bench.analyzer = w.bench.analyzer := by
    unfold Session.resolveAt
    split <;> rfl
  cases a with
  | openDocument uri version text | change uri version edits | close uri | resolve uri token
  | write path content | remove path | clear => exact hidle
  | refresh uri settings =>
    cases hopen : w.session.document? uri with
    | none =>
      simp only [step, Session.refresh, hopen]
      exact hidle
    | some d =>
      have hbench : (w.step loader (.refresh uri settings)).bench = _ :=
        Session.bench_refresh loader w.files settings hopen
      rw [hbench, Workbench.analyzer_diagnose]
      exact Workbench.idle_analyze loader w.files d true hidle
  | diagnostics uri settings =>
    exact (congrArg Analyzer.importing (w.bench.analyzer_diagnose uri settings)).trans hidle
  | definition uri p cancelled | hover uri p cancelled =>
    exact (congrArg Analyzer.importing (hresolve uri p cancelled)).trans hidle

/-- **Between two steps** no module is being read. -/
theorem idle_run (hidle : w.bench.analyzer.importing = []) (loader : Loader) (steps : List Step) :
    (w.run loader steps).bench.analyzer.importing = [] := by
  induction steps generalizing w with
  | nil => exact hidle
  | cons a steps ih => exact ih (idle_step hidle loader a)

end Workspace

namespace Workspace.Sample

/-- A script that imports a file that is not there before the one that is. -/
def careless : Syntax.Tree Script.Kind :=
  .branch (.construct .program)
    (.branch (.construct .importStatement)
      [.leaf (.terminal (.literal "import")) "import",
        .branch (.construct .string) [.leaf (.terminal .name) "'./x.js'"]] :: importing.children)

/-- A workbench that reads this script and the imported one. -/
def bench : Workbench :=
  { Workbench.empty 1 with
    analyzer := .new fun cs => if careless.text = cs then some careless else parse? cs }

/-- The script as a document. -/
def carelessDocument : Document := .ofText uri 1 (String.ofList careless.text)

end Workspace.Sample

/-- The file that is not there does not keep the other one from being read. -/
theorem Workbench.analyze_all_or_nothing_missing :
    Workspace.Sample.bench.analyzer.importing = []
      ∧ ¬ Workspace.Sample.bench.Fails Workspace.Sample.loader Workspace.Sample.carelessDocument
      ∧ (∃ t r, Workspace.Sample.bench.Completes Workspace.Sample.loader
          [(.ofText "/b.js", Workspace.Sample.file)] Workspace.Sample.carelessDocument true t r
        ∧ r.imports.map (·.filePath.text) = ["/x.js", "/b.js"])
      ∧ ((Workspace.Sample.bench.analyze Workspace.Sample.loader
          [(.ofText "/b.js", Workspace.Sample.file)] Workspace.Sample.carelessDocument
            true).2.store.record? Workspace.Sample.importedUri).isSome = true := by
  obtain ⟨hnone, -, hcompletes, -⟩ := Workbench.analyze_all_or_nothing Workspace.Sample.bench
    Workspace.Sample.loader [(.ofText "/b.js", Workspace.Sample.file)]
    Workspace.Sample.carelessDocument true rfl
  obtain ⟨result, hresult⟩ : ∃ result, result = Workspace.Sample.bench.analyze
      Workspace.Sample.loader [(.ofText "/b.js", Workspace.Sample.file)]
      Workspace.Sample.carelessDocument true := ⟨_, rfl⟩
  have hfound : (result.1.map fun r => r.imports.map (·.filePath.text),
      (result.2.store.record? Workspace.Sample.importedUri).isSome)
        = (some ["/x.js", "/b.js"], true) := by
    rw [hresult]
    cbv
  obtain ⟨himports, hrecord⟩ := Prod.mk.inj hfound
  rw [hresult] at himports hrecord
  have hnot : ¬ Workspace.Sample.bench.Fails Workspace.Sample.loader
      Workspace.Sample.carelessDocument := by
    intro hfails
    rw [hnone.2 hfails] at himports
    exact absurd himports (by simp)
  obtain ⟨t, r, h⟩ := hcompletes hnot
  rw [h.result] at himports
  exact ⟨rfl, hnot, ⟨t, r, h, Option.some.inj himports⟩, hrecord⟩

end ElementLens
