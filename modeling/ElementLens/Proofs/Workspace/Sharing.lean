/-
One entry for a file.

What is known of a file is kept under a URI. An open document has the URI that the
editor gives it, an imported module the one that is made from its path. If they are the
same, there is one entry for both: what a refresh of the open document wrote is what
its importers find, and its file is not read. If they are not, there are two:

* **`Store.Retains.of_lastRefresh?`** — what the last refresh wrote is still there, if
  there is room for all that was looked up since;
* **`Workbench.foldl_materialize_congr`** — the file of a module that has its record is
  not read;
* **`Workspace.one_entry_per_file`** — when an open document and an imported module
  have one entry, and what the importer finds.
-/
import ElementLens.Proofs.Session.Queries
import ElementLens.Proofs.Uri.Standard
import ElementLens.Proofs.Workspace.Confluence
import ElementLens.Uri.Parse

namespace ElementLens

/-! ### Records that stay -/

namespace Store

/-- A document has a record that it will not lose soon: only a few documents were looked
up after it. -/
structure Retains (few : Finset Uri) (uri : Uri) (r : Record) (s : Store) : Prop where
  linked : s.Linked
  room : few.card ≤ s.capacity + 1
  recent : RecencyCache.Recent few s uri
  record : s.record? uri = some r

namespace Retains

variable {few : Finset Uri} {uri v : Uri} {d : Document} {r : Record} {s : Store} {u : Use}
  {uses : List Use}

/-- A use of one of the few documents leaves the record, unless it is a refresh. (An
imported file gives no record to a document that has one.) -/
theorem act (h : Retains few uri r s) (hu : u.uri? = some v) (hv : v ∈ few)
    (hgap : ∀ d r', u = .imported d r' → s.record? d.uri = none)
    (hother : ∀ d r', u = .refreshed d r' → d.uri ≠ uri) : Retains few uri r (u.act s) := by
  obtain ⟨e, hputs, -⟩ := u.puts h.linked hu
  refine ⟨hputs.linked, ?_, hputs.recent h.linked h.room hv h.recent, ?_⟩
  · rw [hputs.capacity]
    exact h.room
  · rw [Use.record?_act_recent h.linked h.room hu hv h.recent, h.record]
    cases u with
    | looked w | unset w => rfl
    | refreshed d r' => exact if_neg (hother d r' rfl)
    | imported d r' =>
      refine if_neg fun hd => ?_
      have hnone := hgap d r' rfl
      rw [hd, h.record] at hnone
      exact absurd hnone (by simp)
    | cleared => exact absurd hu (by simp [Use.uri?])

/-- Some uses of the few documents leave the record, if none of them is a refresh. -/
theorem after (h : Retains few uri r s) (huses : ∀ u ∈ uses, ∃ v ∈ few, u.uri? = some v)
    (hgaps : s.FillsGaps uses) (hother : ∀ d r', .refreshed d r' ∈ uses → d.uri ≠ uri) :
    Retains few uri r (s.after uses) := by
  induction uses generalizing s with
  | nil => exact h
  | cons u uses ih =>
    obtain ⟨v, hv, hu⟩ := huses u List.mem_cons_self
    refine ih (h.act hu hv hgaps.1 ?_) (fun u' hu' => huses u' (List.mem_cons_of_mem _ hu'))
      hgaps.2 fun d r' hmem => hother d r' (List.mem_cons_of_mem _ hmem)
    rintro d r' rfl
    exact hother d r' List.mem_cons_self

/-- **What the last refresh wrote** is still there, if the store has room for all
documents that were looked up. -/
theorem of_lastRefresh? (h : s.Linked) (hroom : few.card ≤ s.capacity + 1)
    (huses : ∀ u ∈ uses, ∀ v, u.uri? = some v → v ∈ few) (hgaps : s.FillsGaps uses)
    (hlast : lastRefresh? uses uri = some (d, r)) : Retains few uri r (s.after uses) := by
  -- along the uses, the last one being the one that is added
  induction uses using List.reverseRecOn with
  | nil => exact absurd hlast (by simp [lastRefresh?, sinceClear])
  | append_singleton uses u ih =>
    obtain ⟨hgaps, hgap, -⟩ := fillsGaps_append.1 hgaps
    have hlinked := linked_after h uses
    rw [lastRefresh?_concat] at hlast
    rw [after_append, after_cons, after_nil]
    cases hu : u.uri? with
    | none =>
      rw [Use.eq_cleared hu] at hlast
      exact absurd hlast (by simp [Use.isCleared])
    | some v =>
      have hv : v ∈ few := huses u (List.mem_append_right _ List.mem_cons_self) v hu
      have hkept : u.isCleared = false := by
        cases u with
        | cleared => exact absurd hu (by simp [Use.uri?])
        | _ => rfl
      rw [hkept, if_neg Bool.false_ne_true] at hlast
      rcases Option.or_eq_some_iff.1 hlast with hrefresh | ⟨hnone, hbefore⟩
      · -- this is the refresh
        obtain ⟨e, hputs, he⟩ := u.puts hlinked hu
        cases u with
        | refreshed d' r' =>
          unfold Use.refresh? at hrefresh
          simp only at hrefresh
          split at hrefresh
          · next huri =>
            obtain ⟨rfl, rfl⟩ := Prod.mk.inj (Option.some.inj hrefresh)
            obtain rfl : d'.uri = v := Option.some.inj hu
            subst huri
            refine ⟨hputs.linked, ?_, hputs.recent_self hv, ?_⟩
            · rw [hputs.capacity, capacity_after h]
              exact hroom
            · rw [record?_eq_of_puts hputs, he]
              exact if_pos rfl
          · exact absurd hrefresh (by simp)
        | _ => exact absurd hrefresh (by simp [Use.refresh?])
      · have hretains := ih (fun u hu => huses u (List.mem_append_left _ hu)) hgaps hbefore
        refine hretains.act hu hv hgap ?_
        rintro d' r' rfl huri
        simp [Use.refresh?, huri] at hnone

end Retains

end Store

theorem Store.resolveAt_of_none {s : Store} {uri : Uri} {r : Record} {p : Position}
    (hrecord : s.record? uri = some r) (hnone : tokenAt? r.templates p = none) :
    (s.resolveAt uri p).1 = none := by
  have hfound : (s.analysis uri).1 = some r := (analysis_eq s uri).trans hrecord
  unfold resolveAt
  simp only [hfound, hnone]

namespace Workbench

variable {w : Workbench} {loader : Loader} {files files' : FileSystem} {edge : ImportEdge}
  {edges : List ImportEdge} {few : Finset Uri} {uri : Uri} {r : Record} {d : Document}

/-! ### Files that are not read -/

/-- A module that has a record is not read. -/
theorem materialize_of_known (loader : Loader) (files : FileSystem)
    (h : w.store.record? edge.uri = some r) :
    materialize loader files w edge = { w with store := (w.store.hasAnalysis edge.uri).2 } := by
  have hknown : (w.store.hasAnalysis edge.uri).1 = true := by
    rw [Store.hasAnalysis_fst, Store.record?_lookup_self, h, Option.isSome_some]
  unfold materialize
  simp only [hknown, Bool.true_or, if_true]

/-- Of the files only the one of the module matters. -/
theorem materialize_congr (h : files'.read edge.filePath = files.read edge.filePath) :
    materialize loader files' w edge = materialize loader files w edge := by
  unfold materialize readImport
  rw [h]

/-- A record stays while an import has its turn. -/
theorem retains_materialize (h : w.store.Retains few uri r) (loader : Loader)
    (files : FileSystem) (hedge : edge.uri ∈ few) :
    (materialize loader files w edge).store.Retains few uri r := by
  have hproceeds := w.proceeds_materialize loader files edge
  rw [hproceeds.store]
  refine h.after (fun u hu => ⟨edge.uri, hedge, uri?_of_mem_usesToMaterialize hu⟩)
    hproceeds.fillsGaps ?_
  rintro d r' hu -
  exact hproceeds.allowed _ hu

/-- **A module that has its record** is not read, as long as there is room for all
imports: its file may hold anything. -/
theorem foldl_materialize_congr (h : w.store.Retains few uri r)
    (hedges : ∀ edge ∈ edges, edge.uri ∈ few)
    (hfiles : ∀ edge ∈ edges, edge.uri ≠ uri →
      files'.read edge.filePath = files.read edge.filePath) :
    edges.foldl (materialize loader files') w = edges.foldl (materialize loader files) w := by
  induction edges generalizing w with
  | nil => rfl
  | cons edge edges ih =>
    have hedge := hedges edge List.mem_cons_self
    have hsame : materialize loader files' w edge = materialize loader files w edge := by
      by_cases huri : edge.uri = uri
      · rw [materialize_of_known loader files' (huri ▸ h.record),
          materialize_of_known loader files (huri ▸ h.record)]
      · exact materialize_congr (hfiles edge List.mem_cons_self huri)
    rw [List.foldl_cons, List.foldl_cons, hsame]
    exact ih (retains_materialize h loader files hedge)
      (fun e he => hedges e (List.mem_cons_of_mem _ he))
      fun e he => hfiles e (List.mem_cons_of_mem _ he)

end Workbench

namespace Workspace

open Store (Use)

variable {w : Workspace} {loader : Loader} {steps : List Step} {settings : Settings} {u : Uri}
  {d dB : Document} {r rB : Record} {edge : ImportEdge}

/-! ### Importers of an open document -/

/-- An open document was refreshed. What an importer has of it after its own refresh. -/
structure Shares (loader : Loader) (w : Workspace) (settings : Settings) (d : Document)
    (r : Record) (edge : ImportEdge) (shared : Record) : Prop where
  /-- The import has the record that the open document got. -/
  known : ((w.step loader (.refresh d.uri settings)).store.analysis edge.uri).1 = some shared
  /-- The file is not read: it may hold anything, or not be there. -/
  unread : ∀ files : FileSystem,
    (∀ path, path ≠ edge.filePath → files.read path = w.files.read path) →
      w.session.refresh loader files d.uri settings = w.session.refresh loader w.files d.uri settings
  /-- Definitions are told by the records that are known, so by this one. -/
  definition : ∀ p,
    ((w.step loader (.refresh d.uri settings)).session.definition d.uri p false).1
      = (tokenAt? r.templates p).bind fun token => (Store.definition?
          (fun v => ((w.step loader (.refresh d.uri settings)).store.analysis v).1) d.uri r
            token).map Prod.fst

theorem lastRefresh?_uses_start :
    Store.lastRefresh? (w.uses loader steps) u = lastRefreshed? loader u none w steps :=
  lastRefresh?_uses [] steps

/-- What the last refresh wrote is there after some steps. -/
theorem retains_run (hlinked : w.store.Linked)
    (hroom : (w.lookedUp loader steps).card ≤ w.store.capacity + 1)
    (hlast : lastRefreshed? loader u none w steps = some (dB, rB)) :
    (w.run loader steps).store.Retains (w.lookedUp loader steps) u rB := by
  have hproceeds := w.proceeds_run loader steps
  have hstore : (w.run loader steps).store = w.store.after (w.uses loader steps) := hproceeds.store
  rw [← lastRefresh?_uses_start] at hlast
  rw [hstore]
  exact .of_lastRefresh? hlinked hroom (fun u hu v hv => mem_lookedUp.2 ⟨u, hu, hv⟩)
    hproceeds.fillsGaps hlast

namespace Refreshes

theorem ok_analyzeSingle (h : w.Refreshes loader (.refresh d.uri settings) d r) :
    (w.bench.analyzeSingle loader d).1 = .ok r :=
  ok_of_toOption ((Workbench.fst_analyze ..).symm.trans h.analyzed)

theorem uses_eq (h : w.Refreshes loader (.refresh d.uri settings) d r) :
    w.usesOf loader (.refresh d.uri settings) = .refreshed d r
      :: ((w.bench.analyzeSingle loader d).2.usesToMaterializeAll loader w.files r.followed
        ++ (w.bench.analyze loader w.files d true).2.store.usesToDiagnose d.uri settings) := by
  simp only [usesOf, usesToRefresh, h.isOpen]
  rw [Workbench.usesToAnalyze_of_ok w.files h.ok_analyzeSingle, List.cons_append]

theorem latest_eq (h : w.Refreshes loader (.refresh d.uri settings) d r)
    (last : Option (Document × Record)) :
    w.latest loader u last (.refresh d.uri settings)
      = (Use.refresh? u (.refreshed d r)).or last := by
  unfold latest Use.refresh?
  simp only
  split
  · next huri => rw [← huri, h.isOpen, Option.bind_some, h.analyzed, Option.map_some]
  · rfl

/-- The document and its imports are looked up. -/
theorem around_subset (h : w.Refreshes loader (.refresh d.uri settings) d r)
    (htemplates : r.templates ≠ []) :
    r.around d.uri ⊆ w.lookedUp loader [.refresh d.uri settings] := by
  intro v hv
  rw [mem_lookedUp, Workspace.uses, Workspace.uses, List.append_nil, h.uses_eq]
  rcases Finset.mem_insert.1 hv with rfl | hv
  · exact ⟨_, List.mem_cons_self, rfl⟩
  · obtain ⟨edge, hedge, rfl⟩ := List.mem_map.1 (List.mem_toFinset.1 hv)
    rw [← Record.followed_of_ne htemplates] at hedge
    exact ⟨_, List.mem_cons_of_mem _ (List.mem_append_left _ (Workbench.looked_mem_uses hedge)),
      rfl⟩

end Refreshes

theorem lookedUp_append (steps more : List Step) :
    (w.run loader steps).lookedUp loader more ⊆ w.lookedUp loader (steps ++ more) := by
  intro v hv
  obtain ⟨u, hu, huri⟩ := mem_lookedUp.1 hv
  rw [mem_lookedUp, uses_append]
  exact ⟨u, List.mem_append_right _ hu, huri⟩

/-- The refresh of a document is the last one of this document. -/
theorem lastRefreshed?_refresh
    (h : (w.run loader steps).Refreshes loader (.refresh d.uri settings) d r) :
    lastRefreshed? loader u none w (steps ++ [.refresh d.uri settings])
      = Store.lastRefresh? (w.uses loader steps ++ [.refreshed d r]) u := by
  rw [← lastRefresh?_uses_start, uses_append, Workspace.uses, Workspace.uses, List.append_nil,
    lastRefresh?_usesOf, h.latest_eq, Store.lastRefresh?_concat]
  rfl

/-- When the importer has its record, the open document has the one of its last refresh,
also if they are the same. -/
theorem retains_analyzeSingle (hlinked : w.store.Linked)
    (hroom : (w.lookedUp loader (steps ++ [.refresh d.uri settings])).card ≤ w.store.capacity + 1)
    (hlast : lastRefreshed? loader u none w (steps ++ [.refresh d.uri settings]) = some (dB, rB))
    (h : (w.run loader steps).Refreshes loader (.refresh d.uri settings) d r) :
    ((w.run loader steps).bench.analyzeSingle loader d).2.store.Retains
      (w.lookedUp loader (steps ++ [.refresh d.uri settings])) u rB := by
  have hproceeds := w.proceeds_run loader steps
  have hstore : (w.run loader steps).store = w.store.after (w.uses loader steps) := hproceeds.store
  have hsingle : ((w.run loader steps).bench.analyzeSingle loader d).2.store
      = w.store.after (w.uses loader steps ++ [.refreshed d r]) := by
    rw [Workbench.store_analyzeSingle h.ok_analyzeSingle, Store.after_append, ← hstore]
    rfl
  rw [lastRefreshed?_refresh h] at hlast
  rw [hsingle]
  refine .of_lastRefresh? hlinked hroom ?_ ?_ hlast
  · intro u' hu v hv
    rw [mem_lookedUp, uses_append]
    refine ⟨u', ?_, hv⟩
    rcases List.mem_append.1 hu with hu | hu
    · exact List.mem_append_left _ hu
    · rw [List.mem_singleton.1 hu, Workspace.uses, h.uses_eq]
      exact List.mem_append_right _ List.mem_cons_self
  · exact Store.fillsGaps_append.2
      ⟨hproceeds.fillsGaps, fun _ _ heq => absurd heq (by simp), trivial⟩

namespace Refreshes

theorem resolved (h : w.Refreshes loader (.refresh d.uri settings) d r) :
    ∀ edge ∈ r.imports, edge.Resolved := by
  obtain ⟨-, ⟨e, herror, -⟩ | ⟨r', hok, -, t, -, hextract⟩⟩ := w.bench.analyzeSingle_cases loader d
  · exact absurd (h.ok_analyzeSingle.symm.trans herror) (by simp)
  · obtain rfl : r = r' := Except.ok.inj (h.ok_analyzeSingle.symm.trans hok)
    exact resolved_of_extractBy hextract

/-- The refresh of an importer is the same, whatever is in the file of an open document
that has its record. -/
theorem refresh_congr {few : Finset Uri} {files : FileSystem}
    (h : w.Refreshes loader (.refresh d.uri settings) d r)
    (hretains : (w.bench.analyzeSingle loader d).2.store.Retains few edge.uri rB)
    (hfew : r.templates ≠ [] → r.around d.uri ⊆ few) (hedge : edge ∈ r.imports)
    (hfiles : ∀ path, path ≠ edge.filePath → files.read path = w.files.read path) :
    w.session.refresh loader files d.uri settings
      = w.session.refresh loader w.files d.uri settings := by
  have hanalyze : w.bench.analyze loader files d true = w.bench.analyze loader w.files d true := by
    have hok := h.ok_analyzeSingle
    unfold Workbench.analyze
    rcases hresult : w.bench.analyzeSingle loader d with ⟨e | r', b⟩
    · rfl
    · rw [hresult] at hok hretains
      obtain rfl : r' = r := Except.ok.inj hok
      simp only
      by_cases htemplates : r'.templates = []
      · rw [htemplates]
        rfl
      · rw [Workbench.foldl_materialize_congr hretains
          (fun e he => hfew htemplates (Record.mem_around he)) fun e he hne => hfiles _ ?_]
        -- imports of one file are under one URI
        intro hpath
        refine hne (Option.some.inj ?_)
        rw [← (h.resolved e he).uri, hpath, (h.resolved edge hedge).uri]
  unfold Session.refresh
  simp only [h.isOpen, hanalyze]

end Refreshes

/-- What a document finds after its refresh at a position of its text. -/
theorem resolveAt_refresh (hlinked : w.store.Linked)
    (hroom : r.templates ≠ [] → (r.around d.uri).card ≤ w.store.capacity + 1)
    (h : w.Refreshes loader (.refresh d.uri settings) d r)
    (hown : (w.step loader (.refresh d.uri settings)).store.record? d.uri = some r) (p : Position) :
    ((w.step loader (.refresh d.uri settings)).store.resolveAt d.uri p).1
      = (tokenAt? r.templates p).bind fun token => (Store.definition?
          (w.step loader (.refresh d.uri settings)).store.record? d.uri r token).map (token, ·) := by
  by_cases htemplates : r.templates = []
  · -- there are no tag names to look up
    have hnone : tokenAt? r.templates p = none := by
      rw [htemplates]
      rfl
    rw [Store.resolveAt_of_none hown hnone, hnone, Option.bind_none]
  · have hknows := Workbench.knows_analyze hlinked (hroom htemplates) h.analyzed
      (Finset.mem_insert_self _ _) fun _ => Record.mem_around
    have hserves := hknows.serves (by simpa using htemplates)
    have hcovers (known : Uri → Option Record) (hknown : known d.uri = some r) :
        Store.Covers (r.around d.uri) known d.uri := by
      refine ⟨Finset.mem_insert_self _ _, fun r' hr' edge hedge => Record.mem_around ?_⟩
      rwa [← Option.some.inj (hr'.symm.trans hknown)]
    -- the look at the problems leaves what can be looked up
    have hafter := ((Store.Serves.steady _ _).diagnose hserves settings
      (hcovers _ hknows.record)).2
    have hstore : (w.step loader (.refresh d.uri settings)).store = _ :=
      congrArg Workbench.store (Session.bench_refresh loader w.files settings h.isOpen)
    rw [← Workbench.store_diagnose, ← hstore] at hafter
    rw [((Store.Serves.steady _ _).resolveAt { hafter with record := fun _ _ => rfl } p
      (hcovers _ hown)).1, hown, Option.bind_some]

/-- After its refresh the definitions of a document are told by the records that are
known. -/
theorem definition_refresh (hlinked : w.store.Linked)
    (hroom : r.templates ≠ [] → (r.around d.uri).card ≤ w.store.capacity + 1)
    (h : w.Refreshes loader (.refresh d.uri settings) d r)
    (hown : (w.step loader (.refresh d.uri settings)).store.record? d.uri = some r) (p : Position) :
    ((w.step loader (.refresh d.uri settings)).session.definition d.uri p false).1
      = (tokenAt? r.templates p).bind fun token => (Store.definition?
          (fun v => ((w.step loader (.refresh d.uri settings)).store.analysis v).1) d.uri r
            token).map Prod.fst := by
  have hopen : (w.step loader (.refresh d.uri settings)).session.isOpen d.uri = true := by
    rw [Session.isOpen, step, Session.document?_refresh, h.isOpen, Option.isSome_some]
  have hfound := resolveAt_refresh hlinked hroom h hown p
  rw [show (w.step loader (.refresh d.uri settings)).store.record? = _ from
    funext fun v => (Store.analysis_eq _ v).symm] at hfound
  simp only [Session.definition, Session.resolveAt, hopen, Bool.not_true, Bool.or_self,
    Bool.false_eq_true, if_false]
  rw [show Session.store _ = (w.step loader (.refresh d.uri settings)).store from rfl, hfound,
    Option.map_bind]
  simp only [Function.comp_def, Option.map_map]

/-- **One entry for a file.** The URI of an import is the one that an open document has
if and only if it names the file of the import and is in standard spelling. Then, as
long as the store has room for all documents that are looked up, an importer that is
refreshed has the record of the open document that its last refresh wrote, does not read
the file, and finds its definitions in this record. -/
theorem one_entry_per_file {u : Uri} {p : Path} (hu : u.toPath? = some p) :
    (∀ (importer : Path) (specifier : String) (edge : ImportEdge),
        ImportEdge.ofSpecifier? importer specifier = some edge →
        edge.filePath.components = p.components → (edge.uri = u ↔ u.Standard))
      ∧ (u.Standard → ∀ (loader : Loader) (w : Workspace) (steps : List Step)
          (settings : Settings) (d dB : Document) (r rB : Record) (edge : ImportEdge),
        w.store.Linked →
        (w.lookedUp loader (steps ++ [.refresh d.uri settings])).card ≤ w.store.capacity + 1 →
        lastRefreshed? loader u none w (steps ++ [.refresh d.uri settings]) = some (dB, rB) →
        (w.run loader steps).Refreshes loader (.refresh d.uri settings) d r →
        edge ∈ r.imports → edge.filePath.components = p.components →
          edge.uri = u ∧ Shares loader (w.run loader steps) settings d r edge rB) := by
  refine ⟨fun importer specifier edge hedge hfile =>
    (ImportEdge.resolved_of_ofSpecifier? hedge).uri_eq_iff hu hfile, ?_⟩
  intro hstandard loader w steps settings d dB r rB edge hlinked hroom hlast h hedge hfile
  have huri : edge.uri = u := ((h.resolved edge hedge).uri_eq_iff hu hfile).2 hstandard
  have hlinked' : (w.run loader steps).store.Linked := linked_run hlinked loader steps
  have hcapacity : (w.run loader steps).store.capacity = w.store.capacity := by
    rw [show (w.run loader steps).store = w.store.after (w.uses loader steps) from
      (w.proceeds_run loader steps).store, Store.capacity_after hlinked]
  have hfew : r.templates ≠ [] →
      r.around d.uri ⊆ w.lookedUp loader (steps ++ [.refresh d.uri settings]) := fun htemplates =>
    (h.around_subset htemplates).trans (lookedUp_append _ _)
  -- the refresh of the importer is the last one of the importer
  have hown : lastRefreshed? loader d.uri none w (steps ++ [.refresh d.uri settings])
      = some (d, r) := by
    rw [lastRefreshed?_refresh h, Store.lastRefresh?_concat]
    simp [Use.isCleared, Use.refresh?]
  have hknown := (retains_run hlinked hroom hlast).record
  have hself := (retains_run hlinked hroom hown).record
  rw [run_append, run_cons, run_nil] at hknown hself
  refine ⟨huri, ?_, ?_, ?_⟩
  · rw [Store.analysis_eq, huri, hknown]
  · intro files hfiles
    have hretains := retains_analyzeSingle hlinked hroom hlast h
    rw [← huri] at hretains
    exact h.refresh_congr hretains hfew hedge hfiles
  · refine definition_refresh hlinked' (fun htemplates => ?_) h hself
    rw [hcapacity]
    exact (Finset.card_le_card (hfew htemplates)).trans hroom

namespace Sample

/-- A URI of the imported script with a character encoded that need not be. -/
def escapedUri : Uri := ⟨"file", some .empty, .segments ["%62.js"], none, none⟩

/-- The imported script is open under some URIs, one after the other, and refreshed each
time; then the script with the template is opened. -/
def opened (uris : List Uri) : List Step :=
  uris.flatMap (fun uri =>
      [.openDocument uri 1 (String.ofList imported.text), .refresh uri ⟨10⟩])
    ++ [.openDocument Sample.uri 1 (String.ofList importing.text)]

/-- How much is reported of the script with the template then. -/
def reported (uris : List Uri) (files : FileSystem) : Option Nat :=
  (((start parse? 1 []).run Sample.loader (opened uris)).session.refresh Sample.loader files
    Sample.uri ⟨10⟩).1.map List.length

end Sample

open Workspace.Sample in
/-- If the editor writes the URI of the imported script in another way, the importer does
not find what is open, and reads the file; so it does if there was no room. -/
theorem two_entries_for_file :
    (Uri.parse? "file:///%62.js" = some escapedUri
        ∧ escapedUri.toPath? = some (.ofText "/b.js")
        ∧ ImportEdge.ofSpecifier? (.ofText "/a.js") "./b.js"
          = some ⟨importedUri, .ofText "/b.js"⟩
        ∧ importedUri ≠ escapedUri)
      ∧ (reported [importedUri] [] = some 1 ∧ reported [escapedUri] [] = some 2
        ∧ reported [escapedUri] [(.ofText "/b.js", file)] = some 1)
      ∧ reported [importedUri, escapedUri] [] = some 2 := by
  refine ⟨⟨?_, ?_, ?_, ?_⟩, ⟨?_, ?_, ?_⟩, ?_⟩
  · cbv
  · cbv
  · cbv
  · decide
  · cbv
  · cbv
  · cbv
  · cbv

open Workspace.Sample in
/-- The imported script was never saved, and the importer finds it. -/
theorem one_entry_per_file_unsaved :
    importedUri.toPath? = some (.ofText "/b.js") ∧ importedUri.Standard
      ∧ (start Sample.parse? 1 []).store.Linked
      ∧ ((start Sample.parse? 1 []).lookedUp Sample.loader
          (opened [importedUri] ++ [.refresh document.uri ⟨10⟩])).card ≤ 1 + 1
      ∧ ∃ r dB rB edge,
        lastRefreshed? Sample.loader importedUri none (start Sample.parse? 1 [])
            (opened [importedUri] ++ [.refresh document.uri ⟨10⟩]) = some (dB, rB)
          ∧ rB.elements.map Prod.fst = ["b-b"]
          ∧ ((start Sample.parse? 1 []).run Sample.loader (opened [importedUri])).Refreshes
              Sample.loader (.refresh document.uri ⟨10⟩) document r
          ∧ edge ∈ r.imports ∧ edge.filePath.components = (Path.ofText "/b.js").components
          ∧ edge.uri = importedUri
          ∧ Shares Sample.loader ((start Sample.parse? 1 []).run Sample.loader
              (opened [importedUri])) ⟨10⟩ document r edge rB := by
  have hpath : importedUri.toPath? = some (.ofText "/b.js") := by cbv
  have hstandard : importedUri.Standard := Uri.standard_of_ofPath? (p := .ofText "/b.js") (by cbv)
  have hlinked : (start Sample.parse? 1 []).store.Linked := .empty 1
  have huses : ((start Sample.parse? 1 []).uses Sample.loader
      (opened [importedUri] ++ [.refresh document.uri ⟨10⟩])).filterMap Use.uri?
        = [importedUri, importedUri, Sample.uri, importedUri, Sample.uri, importedUri,
          importedUri] := by cbv
  have hroom : ((start Sample.parse? 1 []).lookedUp Sample.loader
      (opened [importedUri] ++ [.refresh document.uri ⟨10⟩])).card ≤ 1 + 1 := by
    rw [lookedUp, huses]
    decide
  obtain ⟨edge, hedge⟩ : ∃ edge : ImportEdge, edge = ⟨importedUri, .ofText "/b.js"⟩ := ⟨_, rfl⟩
  obtain ⟨r, hr⟩ : ∃ r : Record, r = ⟨.ofText "/a.js", [edge], [],
      [⟨⟨⟨0, 18⟩, ⟨0, 30⟩⟩, [⟨.startTagName, ⟨⟨0, 20⟩, ⟨0, 23⟩⟩, "b-b"⟩,
        ⟨.startTagName, ⟨⟨0, 25⟩, ⟨0, 28⟩⟩, "c-c"⟩]⟩]⟩ := ⟨_, rfl⟩
  obtain ⟨rB, hrB⟩ : ∃ rB : Record, rB = ⟨.ofText "/b.js", [],
      [("b-b", ⟨"B", ⟨⟨1, 6⟩, ⟨1, 7⟩⟩, []⟩)], []⟩ := ⟨_, rfl⟩
  have hlast : lastRefreshed? Sample.loader importedUri none (start Sample.parse? 1 [])
      (opened [importedUri] ++ [.refresh document.uri ⟨10⟩])
        = some (.ofText importedUri 1 (String.ofList imported.text), rB) := by
    rw [hrB]
    cbv
  have hrefreshes : ((start Sample.parse? 1 []).run Sample.loader (opened [importedUri])).Refreshes
      Sample.loader (.refresh document.uri ⟨10⟩) document r := {
    step := ⟨⟨10⟩, rfl⟩
    isOpen := by cbv
    analyzed := by
      rw [hr, hedge]
      cbv }
  have hmem : edge ∈ r.imports := by
    rw [hr]
    exact List.mem_cons_self
  have hfile : edge.filePath.components = (Path.ofText "/b.js").components := by rw [hedge]
  obtain ⟨huri, hshares⟩ := (one_entry_per_file hpath).2 hstandard Sample.loader
    (start Sample.parse? 1 []) (opened [importedUri]) ⟨10⟩ document _ r rB edge hlinked hroom hlast
    hrefreshes hmem hfile
  exact ⟨hpath, hstandard, hlinked, hroom, r, _, rB, edge, hlast, by rw [hrB]; rfl, hrefreshes,
    hmem, hfile, huri, hshares⟩

end Workspace

end ElementLens
