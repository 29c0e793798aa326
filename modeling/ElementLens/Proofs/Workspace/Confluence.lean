/-
Refreshing all open documents.

When settings change, all open documents are refreshed, in no particular order. A
refresh may read the file of a document that another refresh replaces by what is in
the editor, or which fails there. It does not matter, as long as the store has room:

* **`Workspace.record?_refresh`** — the records after one refresh;
* **`Workspace.record?_refreshAll`** — the records after many of them;
* **`Workspace.refreshes_confluent`** — what is known of a document in the end does not
  depend on the order (`settled?`).
-/
import ElementLens.Proofs.Workspace.Imports
import ElementLens.Proofs.Workspace.Provenance

namespace ElementLens

/-- Look-ups leave all records as they are. -/
theorem Store.Fits.looks {few : Finset Uri} {s s' : Store} {uses : List Store.Use}
    (h : s.Fits few) (hlooks : s.Looks uses s')
    (huses : ∀ u ∈ uses, ∀ uri, u.uri? = some uri → uri ∈ few) :
    s'.Fits few ∧ ∀ uri, s'.record? uri = s.record? uri := by
  rw [hlooks.store]
  refine ⟨h.after huses, fun uri => ?_⟩
  rw [Store.record?_after h.linked h.room huses h.within]
  have hlooked := hlooks.looked
  clear huses hlooks
  induction uses with
  | nil => rfl
  | cons u uses ih =>
    obtain ⟨v, rfl⟩ := hlooked u List.mem_cons_self
    exact ih fun u' hu' => hlooked u' (List.mem_cons_of_mem _ hu')

namespace Workbench

open Store (Use)

variable {w w' : Workbench} {loader : Loader} {files : FileSystem} {d : Document} {r : Record}
  {few : Finset Uri} {t : Markup.Tokenizer} {uri : Uri} {edges more : List ImportEdge}
  {parse? : List Char → Option (Syntax.Tree Script.Kind)}

theorem importOf?_append : importOf? parse? t files (edges ++ more) uri
    = (importOf? parse? t files edges uri).or (importOf? parse? t files more uri) :=
  List.findSome?_append

theorem resolved_of_recordOf? (h : recordOf? parse? t d = some r) :
    ∀ edge ∈ r.imports, edge.Resolved := by
  unfold recordOf? at h
  split at h
  · exact absurd h (by simp)
  · exact resolved_of_extractBy (ok_of_toOption h)

/-! ### One document -/

theorem Primed.prepared (h : w.Primed few t) (loader : Loader) : w.Prepared few loader t where
  tokenizer := by rw [tokenizer?, h.tokenizer, Option.some_or]
  idle := h.idle
  fits := h.fits

namespace Prepared

/-- The notices do not matter. -/
theorem congr (h : w.Prepared few loader t) (hanalyzer : w'.analyzer = w.analyzer)
    (hloads : w'.loads = w.loads) (hfits : w'.store.Fits few) : w'.Prepared few loader t where
  tokenizer := by rw [tokenizer?, hanalyzer, hloads, ← tokenizer?, h.tokenizer]
  idle := by rw [hanalyzer, h.idle]
  fits := hfits

/-- An analysis that fails leaves everything as it is. -/
theorem analyze_none (h : w.Prepared few loader t) (files : FileSystem)
    (hr : recordOf? w.analyzer.parse? t d = none) :
    (w.analyze loader files d true).2.Prepared few loader t
      ∧ (w.analyze loader files d true).2.store = w.store := by
  obtain ⟨hfound, hkept⟩ := analyzeSingle_of_tokenizer? d h.tokenizer
  have hcases := w.analyzeSingle_cases loader d
  unfold analyze
  rcases hresult : w.analyzeSingle loader d with ⟨e | r, w₁⟩
  · rw [hresult] at hkept hcases
    obtain ⟨-, ⟨-, -, hstore⟩ | ⟨r, hok, -⟩⟩ := hcases
    · -- the tokenizer was loaded unless the document was too long
      refine ⟨?_, hstore⟩
      have hfits : w₁.store.Fits few := by
        rw [show w₁.store = w.store from hstore]
        exact h.fits
      obtain ⟨-, hsame⟩ | ⟨-, hanalyzer⟩ := hkept
      · obtain rfl : w₁ = w := hsame
        exact h.congr rfl rfl hfits
      · have hprimed : Primed few t (w₁.note (.skipped d.uri e)) := {
          tokenizer := congrArg Analyzer.tokenizer hanalyzer
          idle := (congrArg Analyzer.importing hanalyzer).trans h.idle
          fits := hfits }
        exact hprimed.prepared loader
    · exact absurd hok (by simp)
  · rw [hresult, hr] at hfound
    exact absurd hfound (by simp [Except.toOption])

/-- **One analysis** gives the document its record, and its imports the records of
their files, where there was none. -/
theorem analyze (h : w.Prepared few loader t) (files : FileSystem)
    (huses : ∀ u ∈ w.usesToAnalyze loader files d, ∀ uri, u.uri? = some uri → uri ∈ few) :
    (w.analyze loader files d true).2.Prepared few loader t
      ∧ ∀ uri, (w.analyze loader files d true).2.store.record? uri
        = (if d.uri = uri then recordOf? w.analyzer.parse? t d else none).or
            ((w.store.record? uri).or (importOf? w.analyzer.parse? t files
              ((recordOf? w.analyzer.parse? t d).elim [] Record.followed) uri)) := by
  cases hr : recordOf? w.analyzer.parse? t d with
  | none =>
    obtain ⟨hprepared, hstore⟩ := h.analyze_none files hr
    refine ⟨hprepared, fun uri => ?_⟩
    rw [hstore, ite_self, Option.none_or, Option.elim_none, importOf?_nil, Option.or_none]
  | some r =>
    obtain ⟨hfound, -⟩ := analyzeSingle_of_tokenizer? d h.tokenizer
    rw [usesToAnalyze_of_ok files (ok_of_toOption (hfound.trans hr))] at huses
    have hd : d.uri ∈ few := huses _ List.mem_cons_self _ rfl
    have hedges : ∀ edge ∈ r.followed, edge.uri ∈ few := fun edge hedge =>
      huses _ (List.mem_cons_of_mem _ (looked_mem_uses hedge)) _ rfl
    have hrecords := h.records hd hr
    refine ⟨?_, fun uri => ?_⟩
    · rw [hrecords.analyze files]
      exact (hrecords.primed.foldl_materialize loader files hedges).prepared loader
    · rw [hrecords.record?_analyze h.fits hd hedges, Option.elim_some]
      by_cases huri : d.uri = uri
      · rw [if_pos huri, if_pos huri, Option.some_or, Option.some_or]
      · rw [if_neg huri, if_neg huri, Option.none_or]

theorem diagnose (h : w.Prepared few loader t) (uri : Uri) (settings : Settings)
    (huses : ∀ u ∈ w.store.usesToDiagnose uri settings, ∀ v, u.uri? = some v → v ∈ few) :
    (w.diagnose uri settings).2.Prepared few loader t
      ∧ ∀ v, (w.diagnose uri settings).2.store.record? v = w.store.record? v := by
  obtain ⟨hfits, hsame⟩ := h.fits.looks (w.store.looks_diagnose uri settings) huses
  rw [← w.store_diagnose] at hfits hsame
  refine ⟨h.congr (w.analyzer_diagnose uri settings) ?_ hfits, hsame⟩
  unfold Workbench.diagnose
  simp only
  split <;> rfl

end Prepared

end Workbench

namespace Workspace

open Store (Use)

/-- The record of the text of an open document. -/
def textRecord? (w : Workspace) (t : Markup.Tokenizer) (uri : Uri) : Option Record :=
  (w.session.document? uri).bind (Workbench.recordOf? w.bench.analyzer.parse? t)

/-- The imports that a refresh of a document follows. -/
def edgesFrom (w : Workspace) (t : Markup.Tokenizer) (uri : Uri) : List ImportEdge :=
  (w.textRecord? t uri).elim [] Record.followed

/-- What is known of a document when all open ones were refreshed: the record of its
text in the editor, or else the one that it had, or else the one of its file, if an open
document imports it. -/
def settled? (w : Workspace) (t : Markup.Tokenizer) (uri : Uri) : Option Record :=
  (w.textRecord? t uri).or ((w.store.record? uri).or
    (Workbench.importOf? w.bench.analyzer.parse? t w.files
      (w.session.openUris.flatMap (w.edgesFrom t)) uri))

/-- Refreshes some documents. -/
def refreshAll (order : List (Uri × Settings)) : List Step :=
  order.map fun (uri, settings) => .refresh uri settings

variable {w : Workspace} {loader : Loader} {t : Markup.Tokenizer} {few : Finset Uri} {uri : Uri}
  {order : List (Uri × Settings)}

/-- A workspace that may be one refresh further: there is the same to be refreshed, and
it is ready for it. -/
structure Resumes (few : Finset Uri) (loader : Loader) (t : Markup.Tokenizer)
    (w w' : Workspace) : Prop where
  prepared : w'.bench.Prepared few loader t
  parser : w'.bench.analyzer.parse? = w.bench.analyzer.parse?
  documents : w'.session.documents = w.session.documents
  files : w'.files = w.files

theorem Resumes.textRecord? {w' : Workspace} (h : Resumes few loader t w w') :
    w'.textRecord? t = w.textRecord? t := by
  funext uri
  rw [Workspace.textRecord?, Session.document?, h.documents, h.parser, ← Session.document?,
    ← Workspace.textRecord?]

theorem Resumes.edgesFrom {w' : Workspace} (h : Resumes few loader t w w') :
    w'.edgesFrom t = w.edgesFrom t := by
  funext uri
  rw [Workspace.edgesFrom, h.textRecord?, ← Workspace.edgesFrom]

theorem resolved_of_mem_edgesFrom : ∀ edge ∈ w.edgesFrom t uri, edge.Resolved := by
  intro edge hedge
  unfold edgesFrom textRecord? at hedge
  cases hr : (w.session.document? uri).bind (Workbench.recordOf? w.bench.analyzer.parse? t) with
  | none =>
    rw [hr] at hedge
    exact absurd hedge List.not_mem_nil
  | some r =>
    rw [hr] at hedge
    obtain ⟨d, -, hd⟩ := Option.bind_eq_some_iff.1 hr
    exact Workbench.resolved_of_recordOf? hd edge (r.followed_subset hedge)

/-- **One refresh** gives the document the record of its text, and its imports the
records of their files, where there was none. -/
theorem record?_refresh (h : w.bench.Prepared few loader t) (uri : Uri) (settings : Settings)
    (huses : ∀ u ∈ w.usesToRefresh loader uri settings, ∀ v, u.uri? = some v → v ∈ few) :
    Resumes few loader t w (w.step loader (.refresh uri settings))
      ∧ ∀ v, (w.step loader (.refresh uri settings)).store.record? v
        = (if uri = v then w.textRecord? t uri else none).or ((w.store.record? v).or
            (Workbench.importOf? w.bench.analyzer.parse? t w.files (w.edgesFrom t uri) v)) := by
  unfold usesToRefresh at huses
  cases hopen : w.session.document? uri with
  | none =>
    -- a document that is not open is not refreshed
    have hstep : w.step loader (.refresh uri settings) = w := by
      simp only [step, Session.refresh, hopen]
    have hnothing : w.textRecord? t uri = none := by rw [textRecord?, hopen, Option.bind_none]
    rw [hstep, edgesFrom, hnothing]
    refine ⟨⟨h, rfl, rfl, rfl⟩, fun v => ?_⟩
    rw [ite_self, Option.none_or, Option.elim_none, Workbench.importOf?_nil, Option.or_none]
  | some d =>
    obtain rfl := uri_of_document? hopen
    rw [hopen] at huses
    have hbench : (w.step loader (.refresh d.uri settings)).bench
        = ((w.bench.analyze loader w.files d true).2.diagnose d.uri settings).2 :=
      Session.bench_refresh loader w.files settings hopen
    have hrecord : w.textRecord? t d.uri = Workbench.recordOf? w.bench.analyzer.parse? t d := by
      rw [textRecord?, hopen, Option.bind_some]
    obtain ⟨hanalyzed, hrecords⟩ := h.analyze w.files fun u hu =>
      huses u (List.mem_append_left _ hu)
    -- the look at the problems only looks records up
    obtain ⟨hprepared, hsame⟩ := hanalyzed.diagnose d.uri settings fun u hu =>
      huses u (List.mem_append_right _ hu)
    refine ⟨?_, fun v => ?_⟩
    · exact {
        prepared := hbench ▸ hprepared
        parser := (proceeds_step loader w _).keeps.1
        documents := by simp only [step, Session.refresh, hopen, Session.diagnostics]
        files := rfl }
    · have hstore : (w.step loader (.refresh d.uri settings)).store
          = ((w.bench.analyze loader w.files d true).2.diagnose d.uri settings).2.store :=
        congrArg Workbench.store hbench
      rw [hstore, hsame, edgesFrom, hrecord]
      exact hrecords v

/-- **Many refreshes** give each document the record of its text, and the imports of
all of them the records of their files, where there was none. -/
theorem record?_refreshAll (h : w.bench.Prepared few loader t)
    (huses : ∀ u ∈ w.uses loader (refreshAll order), ∀ v, u.uri? = some v → v ∈ few) (v : Uri) :
    (w.run loader (refreshAll order)).store.record? v
      = (if v ∈ order.map Prod.fst then w.textRecord? t v else none).or ((w.store.record? v).or
          (Workbench.importOf? w.bench.analyzer.parse? t w.files
            ((order.map Prod.fst).flatMap (w.edgesFrom t)) v)) := by
  -- from the front: the rest starts in a workspace with the same documents and files
  induction order generalizing w with
  | nil =>
    rw [List.map_nil, if_neg List.not_mem_nil, Option.none_or, List.flatMap_nil,
      Workbench.importOf?_nil, Option.or_none]
    rfl
  | cons next order ih =>
    obtain ⟨uri, settings⟩ := next
    obtain ⟨hresumes, hrecord⟩ := record?_refresh h uri settings fun u hu =>
      huses u (List.mem_append_left _ hu)
    have hrest := ih hresumes.prepared fun u hu => huses u (List.mem_append_right _ hu)
    rw [hresumes.textRecord?, hresumes.edgesFrom, hresumes.parser, hresumes.files, hrecord] at hrest
    refine hrest.trans ?_
    rw [List.map_cons, List.flatMap_cons, Workbench.importOf?_append]
    simp only [Option.or_assoc]
    rw [← Option.or_assoc]
    congr 1
    -- the text of a document that is refreshed twice is the same both times
    by_cases hv : uri = v
    · subst hv
      rw [if_pos rfl, if_pos List.mem_cons_self]
      split
      · rw [Option.or_self]
      · rw [Option.none_or]
    · have hiff : v ∈ uri :: order.map Prod.fst ↔ v ∈ order.map Prod.fst := by
        rw [List.mem_cons, or_iff_right fun heq => hv heq.symm]
      rw [if_neg hv, Option.or_none]
      simp only [hiff]

/-- What is known of a document in the end can be told without the order. -/
theorem analysis_refreshAll (hlinked : w.store.Linked) (hidle : w.bench.analyzer.importing = [])
    (htokenizer : w.bench.tokenizer? loader = some t)
    (horder : (order.map Prod.fst).Perm w.session.openUris)
    (hroom : (w.store.keys.toFinset ∪ w.lookedUp loader (refreshAll order)).card
      ≤ w.store.capacity + 1) (uri : Uri) :
    ((w.run loader (refreshAll order)).store.analysis uri).1 = w.settled? t uri := by
  have hprepared := Workbench.Prepared.of_room htokenizer hidle hlinked hroom
  -- only open documents have texts
  have htext : (if uri ∈ order.map Prod.fst then w.textRecord? t uri else none)
      = w.textRecord? t uri := by
    refine ite_eq_left_iff.2 fun hclosed => ?_
    have hnone : w.session.document? uri = none := by
      refine List.find?_eq_none.2 fun d hd huri => hclosed (horder.mem_iff.2 ?_)
      obtain rfl : d.uri = uri := of_decide_eq_true huri
      exact List.mem_map_of_mem hd
    rw [textRecord?, hnone, Option.bind_none]
  have hresolved : ∀ edge ∈ w.session.openUris.flatMap (w.edgesFrom t), edge.Resolved := by
    intro edge hedge
    obtain ⟨v, -, hmem⟩ := List.mem_flatMap.1 hedge
    exact resolved_of_mem_edgesFrom edge hmem
  rw [Store.analysis_eq, record?_refreshAll hprepared (fun u hu v hv =>
    Finset.mem_union_right _ (mem_lookedUp.2 ⟨u, hu, hv⟩)), htext, settled?]
  -- the imports of all documents are the same, in another order
  congr 2
  exact Workbench.importOf?_congr hresolved fun edge => (horder.flatMap_right _).mem_iff

/-- **Refreshing all open documents** leaves the same known of every document,
whatever the order, as long as there is a tokenizer or it can be loaded and the store has
room for all documents that are looked up. -/
theorem refreshes_confluent (w : Workspace) (loader : Loader) (t : Markup.Tokenizer)
    (order order' : List (Uri × Settings)) (hlinked : w.store.Linked)
    (hidle : w.bench.analyzer.importing = []) (htokenizer : w.bench.tokenizer? loader = some t)
    (horder : (order.map Prod.fst).Perm w.session.openUris)
    (horder' : (order'.map Prod.fst).Perm w.session.openUris)
    (hroom : (w.store.keys.toFinset ∪ w.lookedUp loader (refreshAll order)).card
      ≤ w.store.capacity + 1)
    (hroom' : (w.store.keys.toFinset ∪ w.lookedUp loader (refreshAll order')).card
      ≤ w.store.capacity + 1) (uri : Uri) :
    ((w.run loader (refreshAll order)).store.analysis uri).1
        = ((w.run loader (refreshAll order')).store.analysis uri).1
      ∧ ((w.run loader (refreshAll order)).store.analysis uri).1 = w.settled? t uri := by
  have hsettled := analysis_refreshAll hlinked hidle htokenizer horder hroom uri
  have hsettled' := analysis_refreshAll hlinked hidle htokenizer horder' hroom' uri
  exact ⟨hsettled.trans hsettled'.symm, hsettled⟩

namespace Sample

/-- A script with a template that imports a module. -/
def terse : Syntax.Tree Script.Kind :=
  .branch (.construct .program)
    [importStatement "'./b.js'",
      .branch (.construct .call)
        [.leaf (.terminal .name) "html",
          .branch (.construct .template)
            [.leaf (.terminal (.literal "`")) "`", .leaf (.terminal (.literal "`")) "`"]]]

/-- A workbench that reads this script and an empty one. -/
def terseBench : Workbench :=
  { Workbench.empty 1 with
    analyzer := .new fun cs =>
      if terse.text = cs then some terse
      else if [] = cs then some (.branch (.construct .program) [])
      else none }

/-- A session in which the script is open, and the text of the module is no script any
more. Its file is an empty script. -/
def unsettled : Workspace :=
  ⟨⟨[.ofText Sample.uri 1 (String.ofList terse.text), .ofText importedUri 1 "?"], terseBench⟩,
    [(.ofText "/b.js", .text "")]⟩

/-- The script is refreshed first, then the module. -/
def scriptFirst : List (Uri × Settings) := [(Sample.uri, ⟨10⟩), (importedUri, ⟨10⟩)]

end Sample

open Workspace.Sample in
/-- The module has the record of its file in the end, whether the file is read before
the refresh of the module fails or after it. -/
theorem refreshes_confluent_unsettled :
    unsettled.store.Linked ∧ unsettled.bench.analyzer.importing = []
      ∧ unsettled.bench.tokenizer? blindLoader = some (fun _ => .reported [] none)
      ∧ (scriptFirst.map Prod.fst).Perm unsettled.session.openUris
      ∧ (scriptFirst.reverse.map Prod.fst).Perm unsettled.session.openUris
      ∧ (unsettled.store.keys.toFinset
          ∪ unsettled.lookedUp blindLoader (refreshAll scriptFirst)).card
        ≤ unsettled.store.capacity + 1
      ∧ (unsettled.store.keys.toFinset
          ∪ unsettled.lookedUp blindLoader (refreshAll scriptFirst.reverse)).card
        ≤ unsettled.store.capacity + 1
      ∧ ((unsettled.run blindLoader (refreshAll scriptFirst)).store.analysis importedUri).1
        = ((unsettled.run blindLoader (refreshAll scriptFirst.reverse)).store.analysis
            importedUri).1
      ∧ (((unsettled.run blindLoader (refreshAll scriptFirst)).store.analysis importedUri).1.map
          fun r => r.filePath.text) = some "/b.js" := by
  have hopenUris : unsettled.session.openUris = scriptFirst.map Prod.fst := by cbv
  have horder : (scriptFirst.map Prod.fst).Perm unsettled.session.openUris := by rw [hopenUris]
  have horder' : (scriptFirst.reverse.map Prod.fst).Perm unsettled.session.openUris := by
    rw [hopenUris]
    exact (List.reverse_perm scriptFirst).map Prod.fst
  have hlooked : (unsettled.uses blindLoader (refreshAll scriptFirst)).filterMap Use.uri?
      = [Sample.uri, importedUri, importedUri, Sample.uri, importedUri] := by cbv
  have hlooked' : (unsettled.uses blindLoader (refreshAll scriptFirst.reverse)).filterMap Use.uri?
      = [importedUri, Sample.uri, importedUri, importedUri, Sample.uri] := by cbv
  have hroom : (unsettled.store.keys.toFinset
      ∪ unsettled.lookedUp blindLoader (refreshAll scriptFirst)).card
        ≤ unsettled.store.capacity + 1 := by
    rw [lookedUp, hlooked]
    decide
  have hroom' : (unsettled.store.keys.toFinset
      ∪ unsettled.lookedUp blindLoader (refreshAll scriptFirst.reverse)).card
        ≤ unsettled.store.capacity + 1 := by
    rw [lookedUp, hlooked']
    decide
  have hlinked : unsettled.store.Linked := .empty 1
  obtain ⟨hsame, hsettled⟩ := refreshes_confluent unsettled blindLoader
    (fun _ => .reported [] none) scriptFirst scriptFirst.reverse hlinked rfl rfl horder horder'
    hroom hroom' importedUri
  refine ⟨hlinked, rfl, rfl, horder, horder', hroom, hroom', hsame, ?_⟩
  rw [hsettled]
  cbv

end Workspace

end ElementLens
