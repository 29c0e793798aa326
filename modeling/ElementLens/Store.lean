/-
What is remembered of documents.

For every document there may be a record and settings, kept under its URI in
a cache. Looking a document up uses its entry, and creates one if there is
none; asking whether there is an entry does not.

* **`Store.lookup`** — the entry of a document;
* **`Store.update`** — changes the entry of a document.
-/
import ElementLens.Component.Record
import ElementLens.RecencyCache
import ElementLens.Settings

namespace ElementLens

/-- What is remembered of one document. -/
structure Entry where
  settings : Option Settings
  analysis : Option Record
deriving DecidableEq, Repr

/-- The entry of a document of which nothing is known. -/
def Entry.empty : Entry := ⟨none, none⟩

/-- Entries by URI. -/
abbrev Store := RecencyCache Uri Entry

namespace Store

/-- The usual capacity. -/
def standardCapacity : Nat := 10000

/-- An empty store. -/
def empty (capacity : Nat) : Store := RecencyCache.empty capacity

/-- The entry of a document, created if there is none. -/
def lookup (s : Store) (uri : Uri) : Entry × Store := s.get uri Entry.empty

/-- Changes the entry of a document, created if there is none. -/
def update (s : Store) (uri : Uri) (f : Entry → Entry) : Store := s.modify uri Entry.empty f

/-- The record of a document. -/
def analysis (s : Store) (uri : Uri) : Option Record × Store :=
  let (e, s) := s.lookup uri
  (e.analysis, s)

/-- Whether a document has a record. -/
def hasAnalysis (s : Store) (uri : Uri) : Bool × Store :=
  let (e, s) := s.lookup uri
  (e.analysis.isSome, s)

/-- Sets the record of a document. -/
def setAnalysis (s : Store) (uri : Uri) (record : Record) : Store :=
  s.update uri fun e => { e with analysis := some record }

/-- The settings of a document. -/
def settings (s : Store) (uri : Uri) : Option Settings × Store :=
  let (e, s) := s.lookup uri
  (e.settings, s)

/-- Sets the settings of a document. -/
def setSettings (s : Store) (uri : Uri) (settings : Settings) : Store :=
  s.update uri fun e => { e with settings := some settings }

/-- Forgets the settings of a document. -/
def clearSettings (s : Store) (uri : Uri) : Store :=
  s.update uri fun e => { e with settings := none }

end Store

end ElementLens
