/-
Analysing documents.

A workbench has a store for the records and an analyzer. The analyzer has a
parser for scripts, and a tokenizer once one could be loaded; until then every
analysis asks the loader again. Analysing a document replaces its record, and
leaves the store alone if there is none. A document with templates needs the
modules it imports: those without a record are read and analysed too, but not
what they import.

* **`Workbench.analyzeSingle`** — the size is checked first, then a tokenizer
  is loaded, then the record is extracted;
* **`Workbench.analyze`** — the same, and the imported modules.
-/
import ElementLens.Diagnostic
import ElementLens.Notice
import ElementLens.Store

namespace ElementLens

/-- Loads a tokenizer, or says why it cannot; it may depend on how often it
was asked before. -/
abbrev Loader := Nat → Except Markup.TokenizerError Markup.Tokenizer

/-- The loader of the markup tokenizer. -/
def Loader.standard : Loader := fun _ => .ok Markup.tokenize

/-- The parser for scripts, the tokenizer, if one was loaded, and the imports
being read. -/
structure Analyzer where
  parse? : List Char → Option (Syntax.Tree Script.Kind)
  tokenizer : Option Markup.Tokenizer
  importing : List Uri

/-- An analyzer with a parser at the beginning. -/
def Analyzer.new (parse? : List Char → Option (Syntax.Tree Script.Kind)) : Analyzer :=
  ⟨parse?, none, []⟩

/-- An analyzer of scripts at the beginning. -/
def Analyzer.fresh : Analyzer := .new Script.parse?

/-- The longest document, in UTF-16 code units, that is analysed. -/
def longestDocument : Nat := 300000

/-- The store, the analyzer, how often the loader was asked, and the notices
so far, the last one first. -/
structure Workbench where
  store : Store
  analyzer : Analyzer
  loads : Nat
  notices : List Notice

namespace Workbench

/-- A workbench with an empty store. -/
def empty (capacity : Nat) : Workbench := ⟨Store.empty capacity, .fresh, 0, []⟩

/-- Adds a notice. -/
def note (w : Workbench) (n : Notice) : Workbench := { w with notices := n :: w.notices }

/-- The tokenizer; the loader is asked if there is none yet. -/
def loadTokenizer (w : Workbench) (loader : Loader) :
    Except AnalysisError Markup.Tokenizer × Workbench :=
  match w.analyzer.tokenizer with
  | some t => (.ok t, w)
  | none =>
    let asked := { w with loads := w.loads + 1 }
    match loader w.loads with
    | .error e => (.error (.unavailable e), asked)
    | .ok t => (.ok t, { asked with analyzer := { w.analyzer with tokenizer := some t } })

/-- Analyses one document and stores its record. -/
def analyzeSingle (w : Workbench) (loader : Loader) (d : Document) :
    Except AnalysisError Record × Workbench :=
  let length := d.utf16Length
  if longestDocument < length then (.error (.oversized length longestDocument), w)
  else
    match w.loadTokenizer loader with
    | (.error e, w) => (.error e, w)
    | (.ok tokenizer, w) =>
      let (result, stops) := extractBy w.analyzer.parse? d tokenizer
      let w := stops.foldl (fun w stop => w.note (.stoppedEarly stop)) w
      match result with
      | .error e => (.error e, w)
      | .ok record => (.ok record, { w with store := w.store.setAnalysis d.uri record })

/-- Starts to read an import. -/
def beginImport (w : Workbench) (uri : Uri) : Workbench :=
  { w with analyzer := { w.analyzer with importing := uri :: w.analyzer.importing } }

/-- Has read an import. -/
def endImport (w : Workbench) (uri : Uri) : Workbench :=
  { w with analyzer := { w.analyzer with
    importing := w.analyzer.importing.filter fun u => u ≠ uri } }

/-- Reads and analyses the file of an import. -/
def readImport (w : Workbench) (loader : Loader) (files : FileSystem) (edge : ImportEdge) :
    Workbench :=
  match files.read edge.filePath with
  | .error e => w.note (.unreadable edge.filePath e)
  | .ok text =>
    match w.analyzeSingle loader (Document.ofText edge.uri 1 text) with
    | (.error e, w) => w.note (.importSkipped edge.uri e)
    | (.ok _, w) => w

/-- Makes the record of an imported module, unless it has one or is being
read. -/
def materialize (loader : Loader) (files : FileSystem) (w : Workbench) (edge : ImportEdge) :
    Workbench :=
  let (known, store) := w.store.hasAnalysis edge.uri
  let w := { w with store }
  if known || w.analyzer.importing.contains edge.uri then w
  else ((w.beginImport edge.uri).readImport loader files edge).endImport edge.uri

/-- Analyses a document and, if asked to and if it has templates, the modules
it imports. -/
def analyze (w : Workbench) (loader : Loader) (files : FileSystem) (d : Document)
    (parseImports : Bool) : Option Record × Workbench :=
  match w.analyzeSingle loader d with
  | (.error e, w) => (none, w.note (.skipped d.uri e))
  | (.ok record, w) =>
    if parseImports && !record.templates.isEmpty then
      (some record, record.imports.foldl (materialize loader files) w)
    else (some record, w)

/-- The problems of a document. -/
def diagnose (w : Workbench) (uri : Uri) (settings : Settings) :
    List Diagnostic × Workbench :=
  let (diagnosis, store) := w.store.diagnose uri settings
  let w := { w with store }
  (diagnosis.diagnostics,
    if diagnosis.capped then w.note (.capped uri settings.maxProblems) else w)

end Workbench

end ElementLens
