/-
Refreshing a document twice.

After a refresh nothing is left to be done for the document: its record is there, and
so are the entries of the modules that it imports, each with a record unless its file
has none (`Workbench.Settled`). A second refresh only looks at all this once more, in
the same order:

* **`Workbench.settled_analyze`** — a first analysis leaves nothing to be done;
* **`Workbench.Settled.analyze`** — a second one does nothing;
* **`Session.refresh_again`** — two refreshes in a row.
-/
import ElementLens.Proofs.Store.Repetition
import ElementLens.Proofs.Workspace.Imports

namespace ElementLens

/-- The imports that an analysis followed were looked up. -/
theorem Store.Knows.isSome_peek? {s : Store} {few : Finset Uri} {uri : Uri} {r : Record}
    {edge : ImportEdge} (h : s.Knows few uri r) (hedge : edge ∈ r.followed) :
    (s.peek? edge.uri).isSome := by
  unfold Record.followed at hedge
  split at hedge
  · exact absurd hedge List.not_mem_nil
  · next htemplates =>
    obtain ⟨e, he⟩ := h.linked.exists_peek? (h.imports (by simpa using htemplates) edge hedge).mem
    rw [he, Option.isSome_some]

namespace Workbench

open Store (Use)

variable {w w' : Workbench} {loader : Loader} {files : FileSystem} {d : Document} {r : Record}
  {few : Finset Uri} {t : Markup.Tokenizer} {edge : ImportEdge} {edges : List ImportEdge}

/-- Nothing is left to be done for a document: its record is there, and the imports
that are followed were looked up and have records, unless their files have none. -/
structure Settled (files : FileSystem) (t : Markup.Tokenizer) (d : Document) (r : Record)
    (w : Workbench) : Prop where
  tokenizer : w.analyzer.tokenizer = some t
  idle : w.analyzer.importing = []
  found : recordOf? w.analyzer.parse? t d = some r
  linked : w.store.Linked
  record : w.store.record? d.uri = some r
  present : ∀ edge ∈ r.followed, (w.store.peek? edge.uri).isSome
  imports : ∀ edge ∈ r.followed, w.store.record? edge.uri = none →
    recordOfFile? w.analyzer.parse? t files edge = none

/-! ### The first analysis -/

/-- When imports had their turns, each one has a record unless its file has none. -/
theorem recordOfFile?_of_foldl_materialize (loader : Loader) (files : FileSystem)
    (ht : w.analyzer.tokenizer = some t) (hidle : w.analyzer.importing = [])
    (hlinked : w.store.Linked) (hroom : few.card ≤ w.store.capacity + 1)
    (hedges : ∀ edge ∈ edges, edge.uri ∈ few) :
    ∀ edge ∈ edges, (edges.foldl (materialize loader files) w).store.record? edge.uri = none →
      recordOfFile? w.analyzer.parse? t files edge = none := by
  induction edges generalizing w with
  | nil => exact fun _ hedge => absurd hedge List.not_mem_nil
  | cons edge edges ih =>
    obtain ⟨hkept, hturn⟩ := record?_materialize loader files edge ht hidle
    have hstore := (w.proceeds_materialize loader files edge).store
    have hlinked' : (materialize loader files w edge).store.Linked := by
      rw [hstore]
      exact Store.linked_after hlinked _
    have hroom' : few.card ≤ (materialize loader files w edge).store.capacity + 1 := by
      rwa [hstore, Store.capacity_after hlinked]
    have hrest : ∀ edge' ∈ edges, edge'.uri ∈ few := fun edge' hedge' =>
      hedges edge' (List.mem_cons_of_mem _ hedge')
    have htail := ih (by rw [hkept, ht]) (by rw [hkept, hidle]) hlinked' hroom' hrest
    rw [hkept] at htail
    intro edge' hedge' hnone
    rcases List.mem_cons.1 hedge' with rfl | hmem
    · cases hrecord : (materialize loader files w edge').store.record? edge'.uri with
      | none =>
        rw [hrecord, eq_comm, Option.or_eq_none_iff] at hturn
        exact hturn.2
      | some r =>
        -- the record stays while the other imports have their turns
        have hproceeds := (materialize loader files w edge').proceeds_materializeAll loader files edges
        have hrecent : RecencyCache.Recent few (materialize loader files w edge').store edge'.uri := by
          rw [hstore]
          refine Store.recent_after hlinked hroom (fun u hu => ⟨edge'.uri, hedges _ hedge',
            uri?_of_mem_usesToMaterialize hu⟩) (.inr ⟨_, List.mem_cons_self, rfl⟩)
        have hstays := Store.record?_after_imports hlinked' hroom' (fun u hu => by
          obtain ⟨e, he, huri⟩ := exists_edge_of_mem_uses hu
          exact ⟨e.uri, hrest e he, huri⟩) hproceeds.fillsGaps
          (fun u hu d r heq => (heq ▸ hproceeds.allowed u hu : OfFiles files edges (.refreshed d r)))
          hrecent hrecord
        rw [List.foldl_cons, hproceeds.store, hstays] at hnone
        exact absurd hnone (by simp)
    · exact htail edge' hmem hnone

/-- **A first analysis** leaves nothing to be done, if there is room for the document
and its imports. -/
theorem settled_analyze (hidle : w.analyzer.importing = []) (hlinked : w.store.Linked)
    (hroom : (r.around d.uri).card ≤ w.store.capacity + 1)
    (hok : (w.analyze loader files d true).1 = some r) :
    ∃ t, (w.analyze loader files d true).2.Settled files t d r := by
  have hknows := knows_analyze hlinked hroom hok (Finset.mem_insert_self _ _) fun _ =>
    Record.mem_around
  rw [fst_analyze] at hok
  have hsingle := ok_of_toOption hok
  obtain ⟨-, ⟨e, herror⟩, -⟩ | ⟨t, -, -, htokenizer, -, -, -, hanalyzer⟩ :=
    w.analyzeSingle_fails_or_finds loader d
  · rw [hsingle] at herror
    exact absurd herror (by simp)
  have hfound := (analyzeSingle_of_tokenizer? d htokenizer).1.symm.trans hok
  -- the state in which the imports have their turns
  obtain ⟨w₁, hw₁⟩ : ∃ w₁, w₁ = (w.analyzeSingle loader d).2 := ⟨_, rfl⟩
  rw [← hw₁] at hanalyzer
  have ht : w₁.analyzer.tokenizer = some t := by rw [hanalyzer]
  have hidle₁ : w₁.analyzer.importing = [] := by rw [hanalyzer, ← hidle]
  have hlast : (w.analyze loader files d true).2 = r.followed.foldl (materialize loader files) w₁ := by
    rw [hw₁, analyze_followed files hsingle]
  have hstore : w₁.store = (Use.refreshed d r).act w.store := by
    rw [hw₁, store_analyzeSingle hsingle]
    rfl
  have hsame := analyzer_foldl_materialize loader files ht hidle₁ r.followed
  rw [← hlast] at hsame
  have hkept := hsame.trans hanalyzer
  refine ⟨t, ?_⟩
  exact {
    tokenizer := by rw [hkept]
    idle := by rw [hkept, ← hidle]
    found := by rwa [hkept]
    linked := hknows.linked
    record := hknows.record
    present := fun _ => hknows.isSome_peek?
    imports := by
      have hroom₁ : (r.around d.uri).card ≤ w₁.store.capacity + 1 := by
        rwa [hstore, Use.capacity_act hlinked]
      have himports := recordOfFile?_of_foldl_materialize loader files ht hidle₁
        (hstore ▸ Use.linked_act hlinked _) hroom₁ fun edge (hedge : edge ∈ r.followed) =>
          Record.mem_around (r.followed_subset hedge)
      rwa [← hlast, ← hsame] at himports }

/-! ### Another analysis -/

/-- An import that has a record, or whose file has none, is only looked up. -/
theorem usesToMaterialize_of_settled (loader : Loader) (ht : w.analyzer.tokenizer = some t)
    (hsettled : w.store.record? edge.uri = none →
      recordOfFile? w.analyzer.parse? t files edge = none) :
    w.usesToMaterialize loader files edge = [.looked edge.uri] := by
  unfold usesToMaterialize
  simp only [Store.hasAnalysis_fst, Store.record?_lookup_self, List.cons.injEq, true_and]
  cases hrecord : w.store.record? edge.uri with
  | some r => rfl
  | none =>
    split
    · rfl
    -- the file is read once more, in vain
    have hfile := hsettled hrecord
    unfold usesToReadImport
    cases hread : files.read edge.filePath with
    | error e => rfl
    | ok text =>
      rw [recordOfFile?_ok hread] at hfile
      have hfound := (analyzer_analyzeSingle (w := { w with
        store := (w.store.hasAnalysis edge.uri).2 }.beginImport edge.uri) loader
        (Document.ofText edge.uri 1 text) ht).2
      simp only [usesToAnalyzeSingle]
      split
      · rfl
      · next r hok =>
        rw [hok] at hfound
        exact absurd (hfound.trans hfile) (by simp [Except.toOption])

theorem usesToMaterializeAll_of_settled (loader : Loader) (ht : w.analyzer.tokenizer = some t)
    (hidle : w.analyzer.importing = []) (hlinked : w.store.Linked)
    (hpresent : ∀ edge ∈ edges, (w.store.peek? edge.uri).isSome)
    (hsettled : ∀ edge ∈ edges, w.store.record? edge.uri = none →
      recordOfFile? w.analyzer.parse? t files edge = none) :
    w.usesToMaterializeAll loader files edges = edges.map fun edge => .looked edge.uri := by
  induction edges generalizing w with
  | nil => rfl
  | cons edge edges ih =>
    have hfirst := usesToMaterialize_of_settled loader ht (hsettled edge List.mem_cons_self)
    have hkept := (record?_materialize loader files edge ht hidle).1
    have hsame : w.store.Same (materialize loader files w edge).store := by
      rw [(w.proceeds_materialize loader files edge).store, hfirst]
      exact (Store.Same.refl hlinked).act (.looked _ (hpresent edge List.mem_cons_self))
    rw [usesToMaterializeAll, hfirst, List.map_cons, List.singleton_append]
    congr 1
    refine ih (by rw [hkept, ht]) (by rw [hkept, hidle]) hsame.linked (fun e he => ?_)
      fun e he => ?_
    · rw [hsame.peek?]
      exact hpresent e (List.mem_cons_of_mem _ he)
    · rw [hsame.record?, hkept]
      exact hsettled e (List.mem_cons_of_mem _ he)

namespace Settled

theorem congr (h : w.Settled files t d r) (hsame : w.store.Same w'.store)
    (hanalyzer : w'.analyzer = w.analyzer) : w'.Settled files t d r where
  tokenizer := by rw [hanalyzer, h.tokenizer]
  idle := by rw [hanalyzer, h.idle]
  found := by rw [hanalyzer, h.found]
  linked := hsame.linked
  record := by rw [hsame.record?, h.record]
  present edge hedge := by rw [hsame.peek?]; exact h.present edge hedge
  imports edge hedge := by rw [hsame.record?, hanalyzer]; exact h.imports edge hedge

/-- **Another analysis** finds the same record, looks the imports up, and does nothing
else. -/
theorem analyze (h : w.Settled files t d r) (loader : Loader) :
    (w.analyze loader files d true).1 = some r
      ∧ w.store.Same (w.analyze loader files d true).2.store
      ∧ (w.analyze loader files d true).2.Settled files t d r := by
  obtain ⟨hkept, hfound⟩ := analyzer_analyzeSingle loader d h.tokenizer
  have hok := ok_of_toOption (hfound.trans h.found)
  have hresult : (w.analyze loader files d true).1 = some r := by
    rw [fst_analyze, hok]
    rfl
  obtain ⟨w₁, hw₁⟩ : ∃ w₁, w₁ = (w.analyzeSingle loader d).2 := ⟨_, rfl⟩
  rw [← hw₁] at hkept
  -- storing the record again changes nothing
  have hown : Use.Quiet w.store (.refreshed d r) := .refreshed d r h.record
  have hsame : w.store.Same w₁.store := by
    rw [hw₁, store_analyzeSingle hok]
    exact (Store.Same.refl h.linked).act hown
  have h₁ := h.congr hsame hkept
  have hquiet : ∀ u ∈ w.usesToAnalyze loader files d, Use.Quiet w.store u := by
    intro u hu
    rw [usesToAnalyze_of_ok files hok, ← hw₁, usesToMaterializeAll_of_settled loader h₁.tokenizer
      h₁.idle h₁.linked h₁.present h₁.imports] at hu
    rcases List.mem_cons.1 hu with rfl | hu
    · exact hown
    · obtain ⟨edge, hedge, rfl⟩ := List.mem_map.1 hu
      exact .looked _ (h.present edge hedge)
  have hsame' : w.store.Same (w.analyze loader files d true).2.store := by
    rw [(w.proceeds_analyze loader files d).store]
    exact (Store.Same.refl h.linked).after hquiet
  refine ⟨hresult, hsame', h.congr hsame' ?_⟩
  rw [analyze_followed files hok, ← hw₁, analyzer_foldl_materialize loader files h₁.tokenizer
    h₁.idle, hkept]

/-- A look at the problems changes nothing. -/
theorem quiet_diagnose (h : w.Settled files t d r) (settings : Settings) :
    ∀ u ∈ w.store.usesToDiagnose d.uri settings, Use.Quiet w.store u := by
  intro u hu
  unfold Store.usesToDiagnose at hu
  simp only [Store.analysis_eq, h.record] at hu
  rcases List.mem_cons.1 hu with rfl | hu
  · exact .looked _ (Store.isSome_peek?_of_record? h.record)
  · have htokens : r.tokens ≠ [] := by
      rintro hnone
      rw [hnone] at hu
      exact absurd hu List.not_mem_nil
    obtain ⟨edge, hedge, rfl⟩ := Store.exists_edge_of_mem_usesToDiagnoseTokens hu
    exact .looked _ (h.present edge (by rwa [Record.followed_of_tokens htokens]))

end Settled

/-! ### The order of the documents -/

/-- The order of some imports tells in which order they are looked up, whatever becomes
of them. -/
theorem dedup_usesToMaterializeAll (w : Workbench) (loader : Loader) (files : FileSystem)
    (edges : List ImportEdge) :
    ((w.usesToMaterializeAll loader files edges).filterMap Use.uri?).dedup
      = (edges.map ImportEdge.uri).dedup := by
  induction edges generalizing w with
  | nil => rfl
  | cons edge edges ih =>
    have hone : ((w.usesToMaterialize loader files edge).filterMap Use.uri?).dedup
        = [edge.uri].dedup := by
      have hall : (w.usesToMaterialize loader files edge).filterMap Use.uri?
          = (w.usesToMaterialize loader files edge).map (Function.const _ edge.uri) :=
        List.filterMap_eq_map_iff_forall_eq_some.2 fun u hu => uri?_of_mem_usesToMaterialize hu
      rw [hall, List.map_const, List.replicate_dedup (by simp [usesToMaterialize])]
      rfl
    rw [usesToMaterializeAll, List.filterMap_append]
    exact RecencyCache.dedup_append_congr hone (ih _)

/-- A look at the problems leaves nothing to be done. -/
theorem Settled.diagnose (h : w.Settled files t d r) (settings : Settings) :
    w.store.Same (w.diagnose d.uri settings).2.store
      ∧ (w.diagnose d.uri settings).2.Settled files t d r := by
  have hsame : w.store.Same (w.diagnose d.uri settings).2.store := by
    rw [store_diagnose, (w.store.looks_diagnose d.uri settings).store]
    exact (Store.Same.refl h.linked).after (h.quiet_diagnose settings)
  exact ⟨hsame, h.congr hsame (w.analyzer_diagnose d.uri settings)⟩

/-- Looks at the problems find the same as long as the same is known. -/
theorem Settled.diagnose_again (h : w.Settled files t d r) (hsame : w.store.Same w'.store)
    (settings : Settings) :
    (w'.diagnose d.uri settings).1 = (w.diagnose d.uri settings).1
      ∧ w'.store.usesToDiagnose d.uri settings = w.store.usesToDiagnose d.uri settings := by
  -- the documents that may be looked up
  have hfew : ∀ v ∈ insert d.uri (r.followed.map ImportEdge.uri).toFinset,
      (w.store.peek? v).isSome := by
    intro v hv
    rcases Finset.mem_insert.1 hv with rfl | hv
    · exact Store.isSome_peek?_of_record? h.record
    · obtain ⟨edge, hedge, rfl⟩ := List.mem_map.1 (List.mem_toFinset.1 hv)
      exact h.present edge hedge
  refine (Store.Same.steady hfew).diagnose_again (.refl h.linked) hsame (Finset.mem_insert_self _ _)
    h.record (fun htokens edge hedge => ?_) settings
  rw [← Record.followed_of_tokens htokens] at hedge
  exact Finset.mem_insert_of_mem (List.mem_toFinset.2 (List.mem_map_of_mem hedge))

/-- The order in which an analysis that has a record uses documents. -/
theorem filterMap_uri?_usesToAnalyze (hok : (w.analyze loader files d true).1 = some r) :
    ((w.usesToAnalyze loader files d).filterMap Use.uri?).dedup
      = (d.uri :: r.followed.map ImportEdge.uri).dedup := by
  rw [fst_analyze] at hok
  rw [usesToAnalyze_of_ok files (ok_of_toOption hok),
    List.filterMap_cons_some (show (Use.refreshed d r).uri? = some d.uri from rfl)]
  have hown : [d.uri].dedup = [d.uri].dedup := rfl
  exact RecencyCache.dedup_append_congr hown (dedup_usesToMaterializeAll _ _ _ _)

end Workbench

namespace Session

open Store (Use)

variable {s : Session} {loader : Loader} {files : FileSystem} {settings : Settings} {uri : Uri}
  {d : Document} {r : Record}

/-- The uses that a refresh makes of the store. -/
theorem store_refresh (hopen : s.document? uri = some d) :
    (s.refresh loader files uri settings).2.store
      = s.store.after (s.bench.usesToAnalyze loader files d
          ++ (s.bench.analyze loader files d true).2.store.usesToDiagnose uri settings) := by
  rw [store, bench_refresh loader files settings hopen, Workbench.store_diagnose,
    (Store.looks_diagnose _ _ _).store, (s.bench.proceeds_analyze loader files d).store,
    Store.after_append]
  rfl

/-- A refresh does not forget everything. -/
theorem cleared_notMem_usesToRefresh (w : Workbench) :
    .cleared ∉ w.usesToAnalyze loader files d
      ++ (w.analyze loader files d true).2.store.usesToDiagnose uri settings := by
  intro hmem
  rcases List.mem_append.1 hmem with hmem | hmem
  · obtain ⟨r, -, hu | hu⟩ := (w.proceeds_analyze loader files d).allowed _ hmem
    · exact absurd hu (by simp)
    · exact hu
  · obtain ⟨v, hv⟩ := (Store.looks_diagnose _ _ _).looked _ hmem
    exact absurd hv (by simp)

/-- **Refreshing twice is refreshing once.** If the analysis of an open document has a
record, and the store has room for the document and what it imports, then a second
refresh right after a first one reports the same problems, and leaves the same documents
in the same order of last uses, each with the same record and settings. The store is
well-formed and no module is being read, as is the case between any two steps
(`Workspace.linked_run`, `Workspace.idle_run`). -/
theorem refresh_again (s : Session) (loader : Loader) (files : FileSystem) (settings : Settings)
    (hlinked : s.store.Linked) (hidle : s.bench.analyzer.importing = [])
    (hopen : s.document? uri = some d)
    (hok : (s.bench.analyze loader files d true).1 = some r)
    (hfew : ((r.imports.map ImportEdge.uri).toFinset.erase uri).card ≤ s.store.capacity) :
    let first := s.refresh loader files uri settings
    let second := first.2.refresh loader files uri settings
    second.1 = first.1 ∧ second.2.store.keys = first.2.store.keys
      ∧ ∀ v, second.2.store.peek? v = first.2.store.peek? v := by
  intro first second
  obtain rfl : d.uri = uri := by simpa using List.find?_some hopen
  have hopen' : first.2.document? d.uri = some d := by
    rw [← hopen]
    exact congrFun (document?_refresh s loader files d.uri settings) d.uri
  -- nothing is left to be done after the first analysis, nor after the look at the problems
  obtain ⟨t, hsettled⟩ := Workbench.settled_analyze hidle hlinked (Record.card_around_le hfew) hok
  obtain ⟨hlooked, hsettled'⟩ := hsettled.diagnose settings
  have hbench : first.2.bench = ((s.bench.analyze loader files d true).2.diagnose d.uri settings).2 :=
    bench_refresh loader files settings hopen
  rw [← hbench] at hlooked hsettled'
  -- so the second analysis does nothing, and the problems are looked at once more
  obtain ⟨hok', hanalyzed, hsettled''⟩ := hsettled'.analyze loader
  have hboth := hlooked.trans hanalyzed
  obtain ⟨hreported, huses⟩ := hsettled.diagnose_again hboth settings
  have hlast : second.2.bench
      = ((first.2.bench.analyze loader files d true).2.diagnose d.uri settings).2 :=
    bench_refresh loader files settings hopen'
  refine ⟨?_, ?_, fun v => ?_⟩
  · rw [fst_refresh loader files settings hopen, ← hreported]
    exact fst_refresh loader files settings hopen'
  · -- both refreshes use the documents in one order
    have hfirst : first.2.store = s.store.after _ := store_refresh hopen
    have hsecond : second.2.store = first.2.store.after _ := store_refresh hopen'
    rw [hsecond, hfirst]
    refine Store.keys_after_again hlinked (cleared_notMem_usesToRefresh _)
      (cleared_notMem_usesToRefresh _) ?_
    rw [List.filterMap_append, List.filterMap_append, huses]
    exact RecencyCache.dedup_append_congr
      ((Workbench.filterMap_uri?_usesToAnalyze hok').trans
        (Workbench.filterMap_uri?_usesToAnalyze hok).symm) rfl
  · rw [store, hlast, (hsettled''.diagnose settings).1.peek?, hanalyzed.peek?]
    rfl

end Session

open Workspace.Sample in
/-- The first refresh reads the imported file, the second one does not. -/
theorem Session.refresh_again_one :
    Session.Sample.session.store.Linked
      ∧ Session.Sample.session.bench.analyzer.importing = []
      ∧ Session.Sample.session.document? uri = some document
      ∧ (∃ r, (Session.Sample.session.bench.analyze loader [(.ofText "/b.js", file)] document true).1 = some r
        ∧ ((r.imports.map ImportEdge.uri).toFinset.erase uri).card ≤ Session.Sample.session.store.capacity)
      ∧ let first := Session.Sample.session.refresh loader [(.ofText "/b.js", file)] uri ⟨10⟩
        let second := first.2.refresh loader [(.ofText "/b.js", file)] uri ⟨10⟩
        first.2.store.keys = [uri, importedUri]
          ∧ second.1 = first.1 ∧ second.2.store.keys = first.2.store.keys
          ∧ ∀ v, second.2.store.peek? v = first.2.store.peek? v := by
  have hfound : ((Session.Sample.session.bench.analyze loader [(.ofText "/b.js", file)] document
        true).1.map fun r => r.imports.map ImportEdge.uri,
      (Session.Sample.session.refresh loader [(.ofText "/b.js", file)] uri ⟨10⟩).2.store.keys)
        = (some [importedUri], [uri, importedUri]) := by
    cbv
  obtain ⟨himports, hkeys⟩ := Prod.mk.inj hfound
  obtain ⟨r, hr, huris⟩ := Option.map_eq_some_iff.1 himports
  have hlinked : Session.Sample.session.store.Linked := .empty 1
  have hopen : Session.Sample.session.document? uri = some document := by rfl
  have hfew : ((r.imports.map ImportEdge.uri).toFinset.erase uri).card
      ≤ Session.Sample.session.store.capacity := by
    rw [huris]
    decide
  exact ⟨hlinked, rfl, hopen, ⟨r, hr, hfew⟩, hkeys,
    refresh_again Session.Sample.session loader _ ⟨10⟩ hlinked rfl hopen hr hfew⟩

end ElementLens
